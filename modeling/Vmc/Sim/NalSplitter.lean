import Vmc.Lib.Bytes
import Mathlib.Data.List.Basic

/-!
# Vmc.Sim.NalSplitter

How the video simulator cuts an Annex-B byte stream into NAL units and gathers
them into access units (`tools/vmc_sim/main.c`).

A unit is known to be complete when the start code behind it is in the buffer;
`process_nalus` feeds the complete units to the assembler until one of them
shows that the access unit under assembly has ended.  That unit is not consumed:
the next call finds it again.  Positions in the buffer are kept as what the
buffer holds from there on.
-/

namespace Vmc

def simIbufCap : Nat := 4 * 1024 * 1024

def simAuMax : Nat := 2 * 1024 * 1024

def simPendMax : Nat := 65536

/-! ## start codes -/

/-- `start3` and `start4`. -/
def startCode (slen : Nat) : List UInt8 := if slen = 3 then [0, 0, 1] else [0, 0, 0, 1]

/-- `find_start` in the rest of a buffer: where the first start code is, and its
length. -/
def findStart : List UInt8 → Option (Nat × Nat)
  | [] => none
  | b :: bs =>
      if (startCode 3).isPrefixOf (b :: bs) then some (0, 3)
      else if (startCode 4).isPrefixOf (b :: bs) then some (0, 4)
      else (findStart bs).map fun (i, slen) => (i + 1, slen)

/-- A NAL unit: the length of its start code and what is behind it. -/
structure NalUnit where
  slen : Nat
  body : List UInt8
deriving DecidableEq, Repr

/-- The unit's bytes in the stream. -/
def NalUnit.bytes (u : NalUnit) : List UInt8 := startCode u.slen ++ u.body

/-- `t = body[0] & 0x1F`. -/
def NalUnit.type (u : NalUnit) : UInt8 := u.body.headD 0 &&& 0x1F

def NalUnit.vcl (u : NalUnit) : Bool := 1 ≤ u.type && u.type ≤ 5

/-- A complete unit found in a buffer: the unit, the buffer from its start code
on, and from the next start code on. -/
structure Found where
  unit : NalUnit
  start : List UInt8
  rest : List UInt8
deriving DecidableEq, Repr

/-- The search of one turn of the loop of `process_nalus`. -/
def nextUnit (buf : List UInt8) : Option Found :=
  if buf.length < 4 then
    none
  else
    (findStart buf).bind fun (sc, slen) =>
      let after := buf.drop (sc + slen)
      (findStart after).map fun (n, _) => ⟨⟨slen, after.take n⟩, buf.drop sc, after.drop n⟩

/-! ## the assembler -/

/-- `au_asm`; `have` says that the unit under assembly has its VCL unit. -/
structure AuAsm where
  au : List UInt8
  auCap : Nat
  pend : List UInt8
  pendCap : Nat
  key : Bool
  hasVcl : Bool
deriving DecidableEq, Repr

def auAsmReset (st : AuAsm) : AuAsm := { st with au := [], pend := [], hasVcl := false, key := false }

/-- `au_append`: data that does not fit is dropped. -/
def auAppend (dst : List UInt8) (cap : Nat) (data : List UInt8) : List UInt8 :=
  if dst.length + data.length > cap then dst else dst ++ data

/-- What is handed out of the assembler: the bytes and whether they are a key
frame. -/
structure AuOut where
  bytes : List UInt8
  key : Bool
deriving DecidableEq, Repr

/-- `au_feed`: the access unit that has ended, if one has, and the assembler
after the call. -/
def auFeed (st : AuAsm) (u : NalUnit) : Option AuOut × AuAsm :=
  if u.body.length = 0 then
    (none, st)
  else if u.vcl ∧ st.hasVcl then
    (some ⟨st.au, st.key⟩, auAsmReset st)
  else if u.vcl then
    let au := if st.pend.length > 0 then auAppend st.au st.auCap st.pend else st.au
    let au := auAppend au st.auCap (startCode u.slen)
    let au := auAppend au st.auCap u.body
    (none, { st with au := au, pend := [], hasVcl := true, key := u.type = 5 })
  else if st.hasVcl then
    let au := auAppend st.au st.auCap (startCode u.slen)
    (none, { st with au := auAppend au st.auCap u.body })
  else
    let pend := auAppend st.pend st.pendCap (startCode u.slen)
    (none, { st with pend := auAppend pend st.pendCap u.body })

/-! ## the loop of `process_nalus` -/

section

variable {σ ω : Type*} (feed : σ → Found → Option ω × σ)

/-- `process_nalus` over any consumer of units: what it was handed, the rest of
the buffer and the consumer afterwards.  Every turn but the last shortens the
buffer, so its length bounds the turns. -/
def processLoop : Nat → σ → List UInt8 → Option ω × List UInt8 × σ
  | 0, s, buf => (none, buf, s)
  | fuel + 1, s, buf =>
      match nextUnit buf with
      | none => (none, buf, s)
      | some f =>
          match feed s f with
          | (some o, s) => (some o, f.start, s)
          | (none, s) => processLoop fuel s f.rest

def processUnits (s : σ) (buf : List UInt8) : Option ω × List UInt8 × σ :=
  processLoop feed buf.length s buf

/-- The loop around `process_nalus` in `run_pipe_source`: what it hands out is
sent, until it hands out nothing. -/
def drainUnits : Nat → σ → List UInt8 → List ω × List UInt8 × σ
  | 0, s, buf => ([], buf, s)
  | fuel + 1, s, buf =>
      match processUnits feed s buf with
      | (none, rest, s) => ([], rest, s)
      | (some o, rest, s) =>
          let (os, rest, s) := drainUnits fuel s rest
          (o :: os, rest, s)

end

/-- `process_nalus`. -/
def processNalus (st : AuAsm) (buf : List UInt8) : Option AuOut × List UInt8 × AuAsm :=
  processUnits (fun st f => auFeed st f.unit) st buf

/-! ## what is found -/

theorem length_startCode {slen : Nat} (h : slen = 3 ∨ slen = 4) :
    (startCode slen).length = slen := by
  rcases h with rfl | rfl <;> rfl

/-- A start code that is found is there. -/
theorem findStart_eq_some {buf : List UInt8} {i slen : Nat} (h : findStart buf = some (i, slen)) :
    (slen = 3 ∨ slen = 4) ∧ startCode slen <+: buf.drop i := by
  induction buf generalizing i with
  | nil => cases h
  | cons b bs ih =>
      unfold findStart at h
      split at h
      · next h3 =>
          cases h
          exact ⟨.inl rfl, List.isPrefixOf_iff_prefix.mp h3⟩
      · split at h
        · next h4 =>
            cases h
            exact ⟨.inr rfl, List.isPrefixOf_iff_prefix.mp h4⟩
        · obtain ⟨⟨j, s⟩, hj, heq⟩ := Option.map_eq_some_iff.mp h
          cases heq
          exact ih hj

theorem findStart_le {buf : List UInt8} {i slen : Nat} (h : findStart buf = some (i, slen)) :
    i + slen ≤ buf.length := by
  obtain ⟨hs, hpre⟩ := findStart_eq_some h
  have hle := hpre.length_le
  rw [length_startCode hs, List.length_drop] at hle
  rcases hs with rfl | rfl <;> omega

/-- Three bytes hold a start code only if they are one. -/
theorem findStart_short {buf : List UInt8} {r : Nat × Nat} (hlen : buf.length < 4)
    (h : findStart buf = some r) : buf = [0, 0, 1] ∧ r = (0, 3) := by
  rcases buf with _ | ⟨a, _ | ⟨b, _ | ⟨c, _ | ⟨d, bs⟩⟩⟩⟩
  · cases h
  · simp [findStart, startCode] at h
  · simp [findStart, startCode] at h
  · simp only [findStart, startCode, reduceIte, List.isPrefixOf] at h
    simp at h
    obtain ⟨⟨rfl, rfl, rfl⟩, rfl⟩ := h
    exact ⟨rfl, rfl⟩
  · simp only [List.length_cons] at hlen
    omega

theorem isPrefixOf_append {code buf : List UInt8} (more : List UInt8)
    (h : code.length ≤ buf.length) : code.isPrefixOf (buf ++ more) = code.isPrefixOf buf := by
  rw [Bool.eq_iff_iff, List.isPrefixOf_iff_prefix, List.isPrefixOf_iff_prefix]
  exact ⟨fun hp => List.prefix_of_prefix_length_le hp (List.prefix_append buf more) h,
    fun hp => hp.trans (List.prefix_append buf more)⟩

/-- What is found in a buffer is found in every longer one. -/
theorem findStart_append {buf : List UInt8} {r : Nat × Nat} (more : List UInt8)
    (h : findStart buf = some r) : findStart (buf ++ more) = some r := by
  induction buf generalizing r with
  | nil => cases h
  | cons b bs ih =>
      rcases Nat.lt_or_ge (b :: bs).length 4 with hshort | hlong
      · obtain ⟨hbuf, rfl⟩ := findStart_short hshort h
        rw [hbuf]
        simp [findStart, startCode]
      · have hlen3 : (startCode 3).length ≤ (b :: bs).length := Nat.le_trans (by decide) hlong
        have h3 := isPrefixOf_append more hlen3
        have hlen4 : (startCode 4).length ≤ (b :: bs).length := hlong
        have h4 := isPrefixOf_append more hlen4
        unfold findStart at h
        rw [List.cons_append] at h3 h4 ⊢
        unfold findStart
        rw [h3, h4]
        split at h
        · next hc => rw [if_pos hc, h]
        · next hc =>
            rw [if_neg hc]
            split at h
            · next hc' => rw [if_pos hc', h]
            · next hc' =>
                obtain ⟨q, hq, heq⟩ := Option.map_eq_some_iff.mp h
                rw [if_neg hc', ih hq, Option.map_some, heq]

/-- A buffer that begins with a start code has its first one there. -/
theorem findStart_of_isPrefixOf {buf : List UInt8} {slen : Nat} (hs : slen = 3 ∨ slen = 4)
    (h : startCode slen <+: buf) : findStart buf = some (0, slen) := by
  obtain ⟨t, rfl⟩ := h
  rcases hs with rfl | rfl <;> simp [findStart, startCode]

/-- Seen from where it stands, a start code is the first. -/
theorem findStart_drop {buf : List UInt8} {i slen : Nat} (h : findStart buf = some (i, slen)) :
    findStart (buf.drop i) = some (0, slen) := by
  obtain ⟨hs, hpre⟩ := findStart_eq_some h
  exact findStart_of_isPrefixOf hs hpre

/-- A start code somewhere in the buffer is enough to find one. -/
theorem findStart_isSome {buf : List UInt8} {i slen : Nat} (hs : slen = 3 ∨ slen = 4)
    (h : startCode slen <+: buf.drop i) : (findStart buf).isSome := by
  induction buf generalizing i with
  | nil =>
      have hle := h.length_le
      rw [length_startCode hs, List.length_drop, List.length_nil] at hle
      omega
  | cons b bs ih =>
      cases i with
      | zero =>
          rw [List.drop_zero] at h
          rw [findStart_of_isPrefixOf hs h]
          rfl
      | succ i =>
          unfold findStart
          split
          · rfl
          split
          · rfl
          · rw [Option.isSome_map]
            exact ih h

/-- **The unit found** stands between its start code and the next one. -/
theorem nextUnit_eq_some {buf : List UInt8} {f : Found} (h : nextUnit buf = some f) :
    (f.unit.slen = 3 ∨ f.unit.slen = 4) ∧ f.start = f.unit.bytes ++ f.rest ∧ f.start <:+ buf ∧
      ∃ slen, (slen = 3 ∨ slen = 4) ∧ startCode slen <+: f.rest := by
  unfold nextUnit at h
  split at h
  · cases h
  obtain ⟨⟨sc, slen⟩, hsc, h⟩ := Option.bind_eq_some_iff.mp h
  obtain ⟨⟨n, slen'⟩, hn, rfl⟩ := Option.map_eq_some_iff.mp h
  obtain ⟨hs, t, ht⟩ := findStart_eq_some hsc
  have hafter : buf.drop (sc + slen) = t := by
    rw [← List.drop_drop, ← ht, List.drop_left' (length_startCode hs)]
  refine ⟨hs, ?_, List.drop_suffix sc buf, slen', findStart_eq_some hn⟩
  show buf.drop sc = startCode slen ++ (buf.drop (sc + slen)).take n ++ (buf.drop (sc + slen)).drop n
  rw [List.append_assoc, List.take_append_drop, hafter, ht]

theorem nextUnit_rest_lt {buf : List UInt8} {f : Found} (h : nextUnit buf = some f) :
    f.rest.length < f.start.length ∧ f.start.length ≤ buf.length := by
  obtain ⟨hs, hstart, hsuf, -⟩ := nextUnit_eq_some h
  refine ⟨?_, hsuf.length_le⟩
  rw [hstart, NalUnit.bytes, List.length_append, List.length_append, length_startCode hs]
  omega

theorem nextUnit_rest_suffix {buf : List UInt8} {f : Found} (h : nextUnit buf = some f) :
    f.rest <:+ buf := by
  obtain ⟨-, hstart, hsuf, -⟩ := nextUnit_eq_some h
  refine List.IsSuffix.trans ?_ hsuf
  rw [hstart]
  exact List.suffix_append _ _

/-- A unit that is complete in a buffer is the one found in every longer one. -/
theorem nextUnit_append {buf : List UInt8} {f : Found} (more : List UInt8)
    (h : nextUnit buf = some f) :
    nextUnit (buf ++ more) = some ⟨f.unit, f.start ++ more, f.rest ++ more⟩ := by
  unfold nextUnit at h ⊢
  split at h
  · cases h
  next hlen =>
    obtain ⟨⟨sc, slen⟩, hsc, h⟩ := Option.bind_eq_some_iff.mp h
    obtain ⟨⟨n, slen'⟩, hn, rfl⟩ := Option.map_eq_some_iff.mp h
    have hle := findStart_le hsc
    have hle' := findStart_le hn
    rw [if_neg (by rw [List.length_append]; omega), findStart_append more hsc]
    simp only [Option.bind_some]
    rw [List.drop_append_of_le_length hle, findStart_append more hn, Option.map_some,
      List.take_append_of_le_length (by omega), List.drop_append_of_le_length (by omega),
      List.drop_append_of_le_length (by omega)]

/-- A complete unit is found again from its start code on. -/
theorem nextUnit_start {buf : List UInt8} {f : Found} (h : nextUnit buf = some f) :
    nextUnit f.start = some f := by
  unfold nextUnit at h ⊢
  split at h
  · cases h
  obtain ⟨⟨sc, slen⟩, hsc, h⟩ := Option.bind_eq_some_iff.mp h
  obtain ⟨⟨n, slen'⟩, hn, rfl⟩ := Option.map_eq_some_iff.mp h
  have hle := findStart_le hsc
  have hle' := findStart_le hn
  have hs := (findStart_eq_some hsc).1
  have hs' := (findStart_eq_some hn).1
  rw [List.length_drop] at hle'
  rw [if_neg (by rw [List.length_drop]; omega), findStart_drop hsc]
  simp only [Option.bind_some, Nat.zero_add, List.drop_drop]
  rw [hn]
  rfl

/-! ## the loop, turn by turn -/

section

variable {σ ω : Type*} {feed : σ → Found → Option ω × σ}

/-- More turns than bytes change nothing. -/
theorem processLoop_congr {a b : Nat} {s : σ} {buf : List UInt8} (ha : buf.length ≤ a)
    (hb : buf.length ≤ b) : processLoop feed a s buf = processLoop feed b s buf := by
  induction a generalizing b s buf with
  | zero =>
      obtain rfl : buf = [] := List.length_eq_zero_iff.mp (by omega)
      cases b <;> rfl
  | succ a ih =>
      cases hf : nextUnit buf with
      | none => cases b <;> simp [processLoop, hf]
      | some f =>
          obtain ⟨hlt, hle⟩ := nextUnit_rest_lt hf
          cases b with
          | zero => omega
          | succ b =>
              simp only [processLoop, hf]
              split
              · rfl
              · exact ih (by omega) (by omega)

variable {s s' : σ} {buf : List UInt8} {f : Found} {o : ω}

theorem processUnits_none (h : nextUnit buf = none) :
    processUnits feed s buf = (none, buf, s) := by
  unfold processUnits
  cases buf.length <;> simp [processLoop, h]

theorem processUnits_stop (h : nextUnit buf = some f) (hfeed : feed s f = (some o, s')) :
    processUnits feed s buf = (some o, f.start, s') := by
  obtain ⟨hlt, hle⟩ := nextUnit_rest_lt h
  obtain ⟨k, hk⟩ := Nat.exists_eq_succ_of_ne_zero (show buf.length ≠ 0 by omega)
  simp [processUnits, hk, processLoop, h, hfeed]

theorem processUnits_go (h : nextUnit buf = some f) (hfeed : feed s f = (none, s')) :
    processUnits feed s buf = processUnits feed s' f.rest := by
  obtain ⟨hlt, hle⟩ := nextUnit_rest_lt h
  obtain ⟨k, hk⟩ := Nat.exists_eq_succ_of_ne_zero (show buf.length ≠ 0 by omega)
  rw [processUnits, hk]
  simp only [processLoop, h, hfeed]
  exact processLoop_congr (by omega) (by omega)

/-- **Invariant rule**: what every unit fed keeps holds after the loop.  The
invariant sees what is left of the buffer. -/
theorem processUnits_invariant (I : σ → List UInt8 → Prop) (J : ω → σ → List UInt8 → Prop)
    (hgo : ∀ s buf f s', I s buf → nextUnit buf = some f → feed s f = (none, s') → I s' f.rest)
    (hstop : ∀ s buf f o s', I s buf → nextUnit buf = some f → feed s f = (some o, s') →
      J o s' f.start) (hs : I s buf) :
    (∃ o s' rest, processUnits feed s buf = (some o, rest, s') ∧ J o s' rest) ∨
      (∃ s' rest, processUnits feed s buf = (none, rest, s') ∧ I s' rest ∧
        nextUnit rest = none ∧ rest <:+ buf) := by
  induction hn : buf.length using Nat.strong_induction_on generalizing s buf with
  | h n ih =>
      cases hf : nextUnit buf with
      | none => exact .inr ⟨s, buf, processUnits_none hf, hs, hf, List.suffix_refl buf⟩
      | some f =>
          obtain ⟨hlt, hle⟩ := nextUnit_rest_lt hf
          rcases hfeed : feed s f with ⟨_ | o, s'⟩
          · rw [processUnits_go hf hfeed]
            obtain h | ⟨t, rest, hrun, hI, hnone, hsuf⟩ :=
              ih f.rest.length (by omega) (hgo s buf f s' hs hf hfeed) rfl
            · exact .inl h
            · exact .inr ⟨t, rest, hrun, hI, hnone, hsuf.trans (nextUnit_rest_suffix hf)⟩
          · exact .inl ⟨o, s', f.start, processUnits_stop hf hfeed, hstop s buf f o s' hs hf hfeed⟩

/-- The invariant rule for the loop around it; the invariant sees what was
handed out so far. -/
theorem drainUnits_invariant (I : List ω → σ → List UInt8 → Prop)
    (hgo : ∀ os s buf f s', I os s buf → nextUnit buf = some f → feed s f = (none, s') →
      I os s' f.rest)
    (hstop : ∀ os s buf f o s', I os s buf → nextUnit buf = some f → feed s f = (some o, s') →
      I (os ++ [o]) s' f.start) {os : List ω} (fuel : Nat) (hs : I os s buf) :
    I (os ++ (drainUnits feed fuel s buf).1) (drainUnits feed fuel s buf).2.2
      (drainUnits feed fuel s buf).2.1 := by
  induction fuel generalizing os s buf with
  | zero => simpa [drainUnits] using hs
  | succ fuel ih =>
      obtain ⟨o, s', rest, hrun, hI⟩ | ⟨s', rest, hrun, hI, -, -⟩ :=
        processUnits_invariant (I os) (fun o => I (os ++ [o])) (hgo os) (hstop os) hs
      · have hrest := ih hI
        simp only [drainUnits, hrun]
        simpa only [List.append_assoc, List.singleton_append] using hrest
      · simpa [drainUnits, hrun] using hI

/-- A consumer that takes the next unit, whatever it is. -/
def Fresh (feed : σ → Found → Option ω × σ) (s : σ) : Prop := ∀ f, (feed s f).1 = none

/-- If the consumer is fresh whenever it has handed something out, one turn for
every byte and one more are enough: the loop ends because no complete unit is
left. -/
theorem drainUnits_done (hfresh : ∀ s f o s', feed s f = (some o, s') → Fresh feed s')
    {fuel : Nat} (h : buf.length < fuel ∨ (buf.length ≤ fuel ∧ Fresh feed s)) :
    nextUnit (drainUnits feed fuel s buf).2.1 = none := by
  induction fuel generalizing s buf with
  | zero =>
      obtain rfl : buf = [] := List.length_eq_zero_iff.mp (by omega)
      rfl
  | succ fuel ih =>
      -- what is left when something is handed out: less than before if a unit was taken first
      obtain ⟨o, s', rest, hrun, hs', hle, hlt⟩ | ⟨s', rest, hrun, -, hnone, -⟩ :=
        @processUnits_invariant σ ω feed s buf
          (fun t b => (t = s ∧ b = buf) ∨ b.length < buf.length)
          (fun _ t b => Fresh feed t ∧ b.length ≤ buf.length ∧
            (Fresh feed s → b.length < buf.length))
          (by
            intro t b f t' hI hf _
            obtain ⟨hlt, hle⟩ := nextUnit_rest_lt hf
            refine .inr ?_
            rcases hI with ⟨-, rfl⟩ | hI <;> omega)
          (by
            intro t b f o t' hI hf hfeed
            obtain ⟨-, hle⟩ := nextUnit_rest_lt hf
            refine ⟨hfresh t f o t' hfeed, ?_, fun hs => ?_⟩
            · rcases hI with ⟨-, rfl⟩ | hI <;> omega
            · rcases hI with ⟨rfl, rfl⟩ | hI
              · have hno := hs f
                rw [hfeed] at hno
                cases hno
              · omega)
          (.inl ⟨rfl, rfl⟩)
      · simp only [drainUnits, hrun]
        refine ih (.inr ⟨?_, hs'⟩)
        rcases h with h | ⟨h, hs⟩
        · omega
        · have := hlt hs
          omega
      · simpa [drainUnits, hrun] using hnone

end

/-- Without a VCL unit under assembly no unit ends one. -/
theorem auFeed_of_not_hasVcl {st : AuAsm} (h : st.hasVcl = false) (u : NalUnit) :
    (auFeed st u).1 = none := by
  unfold auFeed
  split
  · rfl
  · rw [if_neg (by simp [h])]
    split
    · rfl
    · rw [h]
      rfl

/-- An access unit is handed out when its VCL unit is there and another comes;
the assembler is reset. -/
theorem auFeed_eq_some {st : AuAsm} {u : NalUnit} {o : AuOut} (h : (auFeed st u).1 = some o) :
    st.hasVcl = true ∧ o = ⟨st.au, st.key⟩ ∧ (auFeed st u).2 = auAsmReset st := by
  unfold auFeed at h ⊢
  split at h
  · cases h
  next hbody =>
    split at h
    · next hend =>
        rw [if_neg hbody, if_pos hend]
        exact ⟨hend.2, (Option.some.inj h).symm, rfl⟩
    · split at h
      · cases h
      · split at h <;> cases h

/-! ## the assembler, unit by unit -/

section

variable {α : Type*} (unit : α → NalUnit)

/-- The assembler as the units it holds; they may carry more than their bytes. -/
structure UnitAsm (α : Type*) where
  au : List α
  pend : List α
  key : Bool
  hasVcl : Bool

/-- `au_feed` on units. -/
def unitFeed (a : UnitAsm α) (x : α) : Option (List α × Bool) × UnitAsm α :=
  if (unit x).body.length = 0 then
    (none, a)
  else if (unit x).vcl ∧ a.hasVcl then
    (some (a.au, a.key), ⟨[], [], false, false⟩)
  else if (unit x).vcl then
    (none, ⟨a.au ++ a.pend ++ [x], [], (unit x).type = 5, true⟩)
  else if a.hasVcl then
    (none, { a with au := a.au ++ [x] })
  else
    (none, { a with pend := a.pend ++ [x] })

/-- The bytes of a run of units. -/
def unitBytes (xs : List α) : List UInt8 := xs.flatMap fun x => (unit x).bytes

@[simp] theorem unitBytes_nil : unitBytes unit [] = [] := rfl

@[simp] theorem unitBytes_append (xs ys : List α) :
    unitBytes unit (xs ++ ys) = unitBytes unit xs ++ unitBytes unit ys := by
  simp [unitBytes]

@[simp] theorem unitBytes_singleton (x : α) : unitBytes unit [x] = (unit x).bytes := by
  simp [unitBytes]

/-- The assembler's buffers hold the bytes of the units. -/
structure Shows (st : AuAsm) (a : UnitAsm α) : Prop where
  au : st.au = unitBytes unit a.au
  pend : st.pend = unitBytes unit a.pend
  key : st.key = a.key
  hasVcl : st.hasVcl = a.hasVcl

/-- Feeding `u` drops nothing for lack of room. -/
def AuAsm.Room (st : AuAsm) (u : NalUnit) : Prop :=
  u.body.length = 0 ∨ (u.vcl = true ∧ st.hasVcl = true) ∨
    if u.vcl = true then st.au.length + st.pend.length + u.bytes.length ≤ st.auCap
    else if st.hasVcl = true then st.au.length + u.bytes.length ≤ st.auCap
    else st.pend.length + u.bytes.length ≤ st.pendCap

instance (st : AuAsm) (u : NalUnit) : Decidable (st.Room u) :=
  inferInstanceAs (Decidable (_ ∨ _ ∨ _))

theorem auAppend_of_le {dst data : List UInt8} {cap : Nat} (h : dst.length + data.length ≤ cap) :
    auAppend dst cap data = dst ++ data := if_neg (by omega)

/-- A unit that fits is appended with its start code. -/
theorem auAppend_unit {dst : List UInt8} {cap : Nat} {u : NalUnit}
    (h : dst.length + u.bytes.length ≤ cap) :
    auAppend (auAppend dst cap (startCode u.slen)) cap u.body = dst ++ u.bytes := by
  rw [NalUnit.bytes, List.length_append] at h
  have hcode : auAppend dst cap (startCode u.slen) = dst ++ startCode u.slen :=
    auAppend_of_le (by omega)
  rw [hcode, auAppend_of_le (by rw [List.length_append]; omega), NalUnit.bytes, List.append_assoc]

variable {unit}

/-- A unit assembler whose access unit has its VCL unit keeps nothing back. -/
def UnitAsm.Tidy (a : UnitAsm α) : Prop := a.hasVcl = true → a.pend = []

/-- All units held, in the order they came. -/
def UnitAsm.all (a : UnitAsm α) : List α := a.au ++ a.pend

/-- **One unit**: it is ignored, or taken behind those that came before, or it
ends the access unit made of these. -/
theorem unitFeed_cases {a : UnitAsm α} (ha : a.Tidy) (x : α) :
    (unitFeed unit a x).2.Tidy ∧
      (((unitFeed unit a x).1 = none ∧
          ((unitFeed unit a x).2.all = a.all ∨ (unitFeed unit a x).2.all = a.all ++ [x])) ∨
        ((unitFeed unit a x).1 = some (a.all, a.key) ∧ (unitFeed unit a x).2.all = [])) := by
  unfold unitFeed
  split
  · exact ⟨ha, .inl ⟨rfl, .inl rfl⟩⟩
  split
  · next h => exact ⟨fun hno => (by cases hno), .inr ⟨by simp [UnitAsm.all, ha h.2], rfl⟩⟩
  split
  · exact ⟨fun _ => rfl, .inl ⟨rfl, .inr (by simp [UnitAsm.all])⟩⟩
  split
  · next h => exact ⟨fun h => ha h, .inl ⟨rfl, .inr (by simp [UnitAsm.all, ha h])⟩⟩
  · next h => exact ⟨fun h' => absurd h' h, .inl ⟨rfl, .inr (by simp [UnitAsm.all])⟩⟩

/-- **The byte assembler follows the unit assembler** as long as there is room. -/
theorem auFeed_shows {st : AuAsm} {a : UnitAsm α} {x : α} (h : Shows unit st a)
    (hroom : st.Room (unit x)) :
    (auFeed st (unit x)).1 =
        (unitFeed unit a x).1.map (fun o => ⟨unitBytes unit o.1, o.2⟩) ∧
      Shows unit (auFeed st (unit x)).2 (unitFeed unit a x).2 := by
  unfold auFeed unitFeed
  by_cases hempty : (unit x).body.length = 0
  · rw [if_pos hempty, if_pos hempty]
    exact ⟨rfl, h⟩
  rw [if_neg hempty, if_neg hempty, ← h.hasVcl]
  by_cases hend : (unit x).vcl = true ∧ st.hasVcl = true
  · rw [if_pos hend, if_pos hend]
    exact ⟨by simp [h.au, h.key], ⟨rfl, rfl, rfl, rfl⟩⟩
  rw [if_neg hend, if_neg hend]
  have hroom' := (hroom.resolve_left hempty).resolve_left hend
  by_cases hvcl : (unit x).vcl = true
  · rw [if_pos hvcl] at hroom' ⊢
    rw [if_pos hvcl]
    have hpend : (if st.pend.length > 0 then auAppend st.au st.auCap st.pend else st.au) =
        st.au ++ st.pend := by
      split
      · exact auAppend_of_le (by omega)
      · next hno =>
          rw [List.length_eq_zero_iff.mp (by omega : st.pend.length = 0), List.append_nil]
    refine ⟨rfl, ?_, rfl, rfl, rfl⟩
    show auAppend (auAppend (if st.pend.length > 0 then _ else _) st.auCap _) st.auCap _ = _
    rw [hpend, auAppend_unit (by rw [List.length_append]; omega)]
    simp [h.au, h.pend]
  rw [if_neg hvcl] at hroom' ⊢
  rw [if_neg hvcl]
  by_cases hhas : st.hasVcl = true
  · rw [if_pos hhas] at hroom' ⊢
    rw [if_pos hhas]
    refine ⟨rfl, ?_, h.pend, h.key, rfl⟩
    show auAppend (auAppend st.au st.auCap _) st.auCap _ = _
    rw [auAppend_unit hroom']
    simp [h.au]
  · rw [if_neg hhas] at hroom' ⊢
    rw [if_neg hhas]
    refine ⟨rfl, h.au, ?_, h.key, rfl⟩
    show auAppend (auAppend st.pend st.pendCap _) st.pendCap _ = _
    rw [auAppend_unit hroom']
    simp [h.pend]

end

end Vmc
