import Vmc.Sim.NalSplitter

/-!
# Vmc.Sim.FileSource

The simulator's file source (`src_next_au` in `tools/vmc_sim/main.c`): access
units are taken from a raw file, which starts over when it ends.

A unit is complete when a start code stands behind it, so the last unit of the
file never is.  At the end of the file the buffer and the assembler are reset
with what they hold: each pass over the file leaves out the access unit under
assembly, and the last unit with it.

`read` may return any number of bytes it was asked for; `sizes` says how many
each read would like to return.
-/

namespace Vmc

/-! ## the source -/

/-- `file_src`: what the file holds from the read position on, the assembler and
`inbuf`, and how many reads were made. -/
structure FileSrc where
  unread : List UInt8
  st : AuAsm
  inbuf : List UInt8
  reads : Nat

/-- The assembler as `run_file_source` sets it up. -/
def freshAsm : AuAsm := ⟨[], simAuMax, [], simPendMax, false, false⟩

def FileSrc.init (file : List UInt8) : FileSrc := ⟨file, freshAsm, [], 0⟩

/-- How much `read` returns: at least a byte if there is one, and no more than
there is and fits. -/
def readSize (want room avail : Nat) : Nat := min (max 1 want) (min room avail)

variable (file : List UInt8) (sizes : Nat → Nat)

/-- One turn of the loop of `src_next_au`. -/
def srcTurn (s : FileSrc) : Option AuOut × FileSrc :=
  match processNalus s.st s.inbuf with
  | (some au, rest, st) => (some au, { s with st := st, inbuf := rest })
  | (none, rest, st) =>
      -- an input that does not fit is thrown away
      let (inbuf, st) := if rest.length ≥ simIbufCap then ([], auAsmReset st) else (rest, st)
      let n := readSize (sizes s.reads) (simIbufCap - inbuf.length) s.unread.length
      if n > 0 then
        (none, ⟨s.unread.drop n, st, inbuf ++ s.unread.take n, s.reads + 1⟩)
      else
        (none, ⟨file, auAsmReset st, [], s.reads + 1⟩)

/-- `src_next_au`; `none` if it has not returned after `fuel` turns. -/
def srcNextAu : Nat → FileSrc → Option (AuOut × FileSrc)
  | 0, _ => none
  | fuel + 1, s =>
      match srcTurn file sizes s with
      | (some au, s) => some (au, s)
      | (none, s) => srcNextAu fuel s

/-! ## the units of a file -/

/-- A consumer that only remembers the units. -/
def collect (us : List NalUnit) (f : Found) : Option Empty × List NalUnit :=
  (none, us ++ [f.unit])

/-- The units of a buffer that have a start code behind them. -/
def completeUnits (buf : List UInt8) : List NalUnit := (processUnits collect [] buf).2.2

/-- What is left behind the complete units. -/
def leftover (buf : List UInt8) : List UInt8 := (processUnits collect [] buf).2.1

/-- The unit that goes to the end of the file. -/
def lastUnit (buf : List UInt8) : List NalUnit :=
  ((findStart buf).map fun (sc, slen) => (⟨slen, buf.drop (sc + slen)⟩ : NalUnit)).toList

/-- All units of a file. -/
def fileUnits (buf : List UInt8) : List NalUnit := completeUnits buf ++ lastUnit (leftover buf)

/-- The access units of a run of units, when `cur` is under assembly and has its
VCL unit: each goes up to the next VCL unit. -/
def gather (cur : List NalUnit) (key : Bool) : List NalUnit → List AuOut
  | [] => [⟨unitBytes id cur, key⟩]
  | u :: us =>
      if u.vcl then ⟨unitBytes id cur, key⟩ :: gather [u] (u.type = 5) us
      else gather (cur ++ [u]) key us

/-- The access units of a run of units behind `pre`, which has no VCL unit: what
comes before the first VCL unit belongs to it. -/
def accessUnits (pre : List NalUnit) : List NalUnit → List AuOut
  | [] => []
  | u :: us =>
      if u.vcl then gather (pre ++ [u]) (u.type = 5) us
      else accessUnits (pre ++ [u]) us

/-- Empty units are ignored. -/
def solid (us : List NalUnit) : List NalUnit := us.filter fun u => u.body ≠ []

/-- **The access units of a file.** -/
def fileAus (file : List UInt8) : List AuOut := accessUnits [] (solid (fileUnits file))

/-! ## cutting -/

theorem processUnits_collect (us : List NalUnit) (buf : List UInt8) :
    processUnits collect us buf = (none, leftover buf, us ++ completeUnits buf) := by
  induction hn : buf.length using Nat.strong_induction_on generalizing us buf with
  | h n ih =>
      cases hf : nextUnit buf with
      | none => simp [leftover, completeUnits, processUnits_none hf]
      | some f =>
          obtain ⟨hlt, hle⟩ := nextUnit_rest_lt hf
          have hrest := fun us => ih f.rest.length (by omega) us f.rest rfl
          have hgo := fun us => @processUnits_go _ _ collect us _ buf f hf rfl
          have hcut : leftover buf = leftover f.rest ∧
              completeUnits buf = f.unit :: completeUnits f.rest := by
            rw [leftover, completeUnits, hgo [], hrest]
            simp
          rw [hgo us, hrest, hcut.1, hcut.2]
          simp

theorem cut_none {buf : List UInt8} (h : nextUnit buf = none) :
    completeUnits buf = [] ∧ leftover buf = buf := by
  simp [leftover, completeUnits, processUnits_none h]

theorem cut_some {buf : List UInt8} {f : Found} (h : nextUnit buf = some f) :
    completeUnits buf = f.unit :: completeUnits f.rest ∧ leftover buf = leftover f.rest := by
  have hgo := @processUnits_go _ _ collect [] _ buf f h rfl
  rw [completeUnits, leftover, hgo, processUnits_collect]
  simp

/-! ## the loop over the units -/

/-- `process_nalus` over a list of units: what is handed out, and the units and
the assembler afterwards. -/
def feedUntil (st : AuAsm) : List NalUnit → Option AuOut × List NalUnit × AuAsm
  | [] => (none, [], st)
  | u :: us =>
      match auFeed st u with
      | (some o, st) => (some o, u :: us, st)
      | (none, st) => feedUntil st us

/-- `process_nalus` sees the complete units only. -/
theorem processNalus_eq (st : AuAsm) (buf : List UInt8) :
    ∃ rest, processNalus st buf = ((feedUntil st (completeUnits buf)).1, rest,
        (feedUntil st (completeUnits buf)).2.2) ∧
      completeUnits rest = (feedUntil st (completeUnits buf)).2.1 ∧ rest <:+ buf ∧
      ((feedUntil st (completeUnits buf)).1 = none → nextUnit rest = none) := by
  induction hn : buf.length using Nat.strong_induction_on generalizing st buf with
  | h n ih =>
      cases hf : nextUnit buf with
      | none =>
          obtain ⟨hcut, -⟩ := cut_none hf
          exact ⟨buf, by rw [hcut]; exact processUnits_none hf, by rw [hcut]; rfl,
            List.suffix_refl buf, fun _ => hf⟩
      | some f =>
          obtain ⟨hlt, hle⟩ := nextUnit_rest_lt hf
          obtain ⟨hcut, -⟩ := cut_some hf
          obtain ⟨-, -, hsuf, -⟩ := nextUnit_eq_some hf
          rw [hcut]
          rcases hfeed : auFeed st f.unit with ⟨_ | o, st'⟩
          · obtain ⟨rest, hrun, hrest, hsuf', hnone⟩ := ih f.rest.length (by omega) st' f.rest rfl
            have hgo : processNalus st buf = processNalus st' f.rest := processUnits_go hf hfeed
            simp only [feedUntil, hfeed]
            exact ⟨rest, hgo.trans hrun, hrest, hsuf'.trans (nextUnit_rest_suffix hf), hnone⟩
          · simp only [feedUntil, hfeed]
            exact ⟨f.start, processUnits_stop hf hfeed, (cut_some (nextUnit_start hf)).1, hsuf,
              fun h => by cases h⟩

/-- What is handed out from a prefix is handed out from the whole; and with
nothing handed out, the loop goes on where the prefix ended. -/
theorem processNalus_append (st : AuAsm) (buf more : List UInt8) :
    (∀ o rest st', processNalus st buf = (some o, rest, st') →
      processNalus st (buf ++ more) = (some o, rest ++ more, st')) ∧
    (∀ rest st', processNalus st buf = (none, rest, st') →
      processNalus st (buf ++ more) = processNalus st' (rest ++ more)) := by
  induction hn : buf.length using Nat.strong_induction_on generalizing st buf with
  | h n ih =>
      cases hf : nextUnit buf with
      | none =>
          have hrun : processNalus st buf = (none, buf, st) := processUnits_none hf
          rw [hrun]
          refine ⟨fun o rest st' h => (by cases h), fun rest st' h => ?_⟩
          cases h
          rfl
      | some f =>
          obtain ⟨hlt, hle⟩ := nextUnit_rest_lt hf
          have hmore := nextUnit_append more hf
          rcases hfeed : auFeed st f.unit with ⟨_ | o, st'⟩
          · have hgo : processNalus st buf = processNalus st' f.rest := processUnits_go hf hfeed
            have hgo' : processNalus st (buf ++ more) = processNalus st' (f.rest ++ more) :=
              processUnits_go hmore hfeed
            rw [hgo, hgo']
            exact ih f.rest.length (by omega) st' f.rest rfl
          · have hstop : processNalus st buf = (some o, f.start, st') := processUnits_stop hf hfeed
            have hstop' : processNalus st (buf ++ more) = (some o, f.start ++ more, st') :=
              processUnits_stop hmore hfeed
            rw [hstop, hstop']
            refine ⟨fun o' rest st'' h => ?_, fun rest st'' h => (by cases h)⟩
            cases h
            rfl

/-- All that is handed out from a list of units, call after call. -/
def emitted (st : AuAsm) : List NalUnit → List AuOut
  | [] => []
  | u :: us =>
      match auFeed st u with
      | (none, st) => emitted st us
      | (some o, st) => o :: emitted (auFeed st u).2 us

theorem emitted_feedUntil_none {st : AuAsm} {us : List NalUnit} (h : (feedUntil st us).1 = none) :
    emitted st us = [] := by
  induction us generalizing st with
  | nil => rfl
  | cons u us ih =>
      rcases hfeed : auFeed st u with ⟨_ | o, st'⟩
      · simp only [feedUntil, emitted, hfeed] at h ⊢
        exact ih h
      · simp only [feedUntil, hfeed] at h
        cases h

theorem emitted_feedUntil_some {st : AuAsm} {us : List NalUnit} {o : AuOut}
    (h : (feedUntil st us).1 = some o) :
    emitted st us = o :: emitted (feedUntil st us).2.2 (feedUntil st us).2.1 := by
  induction us generalizing st with
  | nil => cases h
  | cons u us ih =>
      rcases hfeed : auFeed st u with ⟨_ | o', st'⟩
      · simp only [feedUntil, emitted, hfeed] at h ⊢
        exact ih h
      · simp only [feedUntil, hfeed] at h
        obtain rfl := Option.some.inj h
        -- the unit that ended the access unit is the first of the next one
        have hreset : st'.hasVcl = false := by
          have h2 : st' = auAsmReset st :=
            (congrArg Prod.snd hfeed).symm.trans (auFeed_eq_some (congrArg Prod.fst hfeed)).2.2
          rw [h2]
          rfl
        rcases hagain : auFeed st' u with ⟨o', st''⟩
        obtain rfl : o' = none := by
          rw [← auFeed_of_not_hasVcl hreset u, hagain]
        simp only [feedUntil, emitted, hfeed, hagain]

/-! ## what the buffer holds -/

/-- The buffer begins with a start code. -/
def Begins (buf : List UInt8) : Prop := ∃ slen, (slen = 3 ∨ slen = 4) ∧ startCode slen <+: buf

/-- From a start code on, every unit fits the input buffer with a start code
behind it. -/
structure Small (buf : List UInt8) : Prop where
  begins : Begins buf
  units : ∀ u ∈ fileUnits buf, u.bytes.length + 4 ≤ simIbufCap

theorem nextUnit_start_eq {buf : List UInt8} {f : Found} (hb : Begins buf)
    (h : nextUnit buf = some f) : f.start = buf := by
  obtain ⟨slen, hs, hpre⟩ := hb
  unfold nextUnit at h
  split at h
  · cases h
  rw [findStart_of_isPrefixOf hs hpre, Option.bind_some] at h
  obtain ⟨⟨n, slen'⟩, -, rfl⟩ := Option.map_eq_some_iff.mp h
  rfl

theorem Small.rest {buf : List UInt8} {f : Found} (hb : Small buf) (h : nextUnit buf = some f) :
    Small f.rest := by
  obtain ⟨hcut, hleft⟩ := cut_some h
  obtain ⟨-, -, -, hcode⟩ := nextUnit_eq_some h
  refine ⟨hcode, fun u hu => hb.units u ?_⟩
  rw [fileUnits, hcut, hleft]
  exact List.mem_cons_of_mem _ hu

/-- The first unit of a stream, complete or not. -/
theorem first_unit {buf : List UInt8} (hb : Begins buf) :
    (∃ f, nextUnit buf = some f ∧ buf = f.unit.bytes ++ f.rest ∧ f.unit ∈ fileUnits buf) ∨
      (nextUnit buf = none ∧ ∃ u ∈ fileUnits buf, u.bytes = buf) := by
  cases hf : nextUnit buf with
  | some f =>
      obtain ⟨-, hstart, -, -⟩ := nextUnit_eq_some hf
      refine .inl ⟨f, rfl, (nextUnit_start_eq hb hf).symm.trans hstart, ?_⟩
      rw [fileUnits, (cut_some hf).1]
      exact List.mem_cons_self
  | none =>
      obtain ⟨slen, hs, hpre⟩ := hb
      obtain ⟨hcut, hleft⟩ := cut_none hf
      refine .inr ⟨rfl, ⟨slen, buf.drop slen⟩, ?_, ?_⟩
      · rw [fileUnits, hcut, hleft, lastUnit, findStart_of_isPrefixOf hs hpre]
        simp
      · obtain ⟨t, rfl⟩ := hpre
        rw [NalUnit.bytes, List.drop_left' (length_startCode hs)]

/-- A unit with a start code behind it is complete. -/
theorem nextUnit_isSome {u : NalUnit} {slen : Nat} (hu : u.slen = 3 ∨ u.slen = 4)
    (hs : slen = 3 ∨ slen = 4) (t : List UInt8) :
    (nextUnit (u.bytes ++ (startCode slen ++ t))).isSome := by
  have hlen := length_startCode hu
  have hlen' := length_startCode hs
  have hfirst : findStart (u.bytes ++ (startCode slen ++ t)) = some (0, u.slen) :=
    findStart_of_isPrefixOf hu (by rw [NalUnit.bytes, List.append_assoc]; exact List.prefix_append _ _)
  have hafter : (u.bytes ++ (startCode slen ++ t)).drop (0 + u.slen) =
      u.body ++ (startCode slen ++ t) := by
    rw [NalUnit.bytes, List.append_assoc, List.drop_left' (by omega)]
  have hnext : (findStart (u.body ++ (startCode slen ++ t))).isSome := by
    refine @findStart_isSome _ u.body.length _ hs ?_
    rw [List.drop_left]
    exact List.prefix_append _ _
  unfold nextUnit
  rw [if_neg (by simp only [NalUnit.bytes, List.length_append]; omega), hfirst, Option.bind_some]
  simp only [hafter, Option.isSome_map]
  exact hnext

/-- A buffer without a complete unit is not full. -/
theorem Small.length_lt {buf more : List UInt8} (hb : Small (buf ++ more))
    (hnone : nextUnit buf = none) : buf.length < simIbufCap := by
  rcases first_unit hb.begins with ⟨f, hf, hbuf, hmem⟩ | ⟨-, u, hmem, hbytes⟩
  · by_contra hfull
    have hsize := hb.units f.unit hmem
    obtain ⟨hs, -, -, slen, hs', t, hcode⟩ := nextUnit_eq_some hf
    have hpre : f.unit.bytes ++ startCode slen <+: buf := by
      refine List.prefix_of_prefix_length_le ?_ (List.prefix_append buf more) ?_
      · rw [hbuf, ← hcode, ← List.append_assoc]
        exact List.prefix_append _ _
      · rw [List.length_append, length_startCode hs']
        omega
    obtain ⟨t', ht'⟩ := hpre
    have hsome := nextUnit_isSome hs hs' t'
    rw [← List.append_assoc, ht', hnone] at hsome
    cases hsome
  · have hsize := hb.units u hmem
    rw [hbytes, List.length_append] at hsize
    omega

/-- What the loop leaves of a buffer goes on as it did. -/
theorem Small.process {buf more rest : List UInt8} {st st' : AuAsm} {o : Option AuOut}
    (hb : Small (buf ++ more)) (h : processNalus st buf = (o, rest, st')) :
    Small (rest ++ more) := by
  have hcases := @processUnits_invariant _ _ (fun st (f : Found) => auFeed st f.unit) st buf
    (fun _ b => Small (b ++ more)) (fun _ _ b => Small (b ++ more))
    (fun _ b f _ hI hf _ => hI.rest (nextUnit_append more hf))
    (fun _ b f _ _ hI hf _ => by
      have hstart : f.start ++ more = b ++ more :=
        nextUnit_start_eq hI.begins (nextUnit_append more hf)
      rw [hstart]
      exact hI) hb
  rcases hcases with ⟨o', t, rest', hrun, hJ⟩ | ⟨t, rest', hrun, hI, -, -⟩
  · cases h.symm.trans hrun
    exact hJ
  · cases h.symm.trans hrun
    exact hI

/-! ## one turn -/

theorem auFeed_caps (st : AuAsm) (u : NalUnit) :
    (auFeed st u).2.auCap = st.auCap ∧ (auFeed st u).2.pendCap = st.pendCap := by
  unfold auFeed auAsmReset
  split
  · exact ⟨rfl, rfl⟩
  split
  · exact ⟨rfl, rfl⟩
  split
  · exact ⟨rfl, rfl⟩
  split <;> exact ⟨rfl, rfl⟩

theorem feedUntil_caps (st : AuAsm) (us : List NalUnit) :
    (feedUntil st us).2.2.auCap = st.auCap ∧ (feedUntil st us).2.2.pendCap = st.pendCap := by
  induction us generalizing st with
  | nil => exact ⟨rfl, rfl⟩
  | cons u us ih =>
      have hcaps := auFeed_caps st u
      rcases hfeed : auFeed st u with ⟨_ | o, st'⟩
      · rw [hfeed] at hcaps
        simp only [feedUntil, hfeed]
        exact ⟨(ih st').1.trans hcaps.1, (ih st').2.trans hcaps.2⟩
      · rw [hfeed] at hcaps
        simp only [feedUntil, hfeed]
        exact hcaps

/-- The source between two turns: its stream goes on with units that fit. -/
structure FileSrc.Ok (s : FileSrc) : Prop where
  small : Small (s.inbuf ++ s.unread)
  auCap : s.st.auCap = simAuMax
  pendCap : s.st.pendCap = simPendMax

/-- What the source will hand out before its file ends. -/
def FileSrc.ahead (s : FileSrc) : List AuOut :=
  emitted s.st (completeUnits (s.inbuf ++ s.unread))

theorem emitted_of_process_some {st st' : AuAsm} {buf rest : List UInt8} {o : AuOut}
    (h : processNalus st buf = (some o, rest, st')) :
    emitted st (completeUnits buf) = o :: emitted st' (completeUnits rest) ∧
      st'.auCap = st.auCap ∧ st'.pendCap = st.pendCap := by
  obtain ⟨rest', hrun, hrest, -, -⟩ := processNalus_eq st buf
  have hcaps := feedUntil_caps st (completeUnits buf)
  obtain ⟨hout, hback⟩ := Prod.mk.inj (h.symm.trans hrun)
  obtain ⟨rfl, hst⟩ := Prod.mk.inj hback
  rw [emitted_feedUntil_some hout.symm, ← hrest, ← hst]
  exact ⟨rfl, hst ▸ hcaps⟩

theorem emitted_of_process_none {st st' : AuAsm} {buf rest : List UInt8}
    (h : processNalus st buf = (none, rest, st')) :
    emitted st (completeUnits buf) = [] ∧ nextUnit rest = none ∧
      st'.auCap = st.auCap ∧ st'.pendCap = st.pendCap := by
  obtain ⟨rest', hrun, -, -, hnone⟩ := processNalus_eq st buf
  have hcaps := feedUntil_caps st (completeUnits buf)
  obtain ⟨hout, hback⟩ := Prod.mk.inj (h.symm.trans hrun)
  obtain ⟨rfl, hst⟩ := Prod.mk.inj hback
  exact ⟨emitted_feedUntil_none hout.symm, hnone hout.symm, hst ▸ hcaps⟩

/-- With nothing handed out, what lies ahead is still the same. -/
theorem emitted_append_of_process_none {st st' : AuAsm} {buf rest : List UInt8}
    (h : processNalus st buf = (none, rest, st')) (more : List UInt8) :
    emitted st (completeUnits (buf ++ more)) = emitted st' (completeUnits (rest ++ more)) := by
  have happ := (processNalus_append st buf more).2 rest st' h
  rcases hmore : processNalus st' (rest ++ more) with ⟨_ | o, rest', st''⟩
  · rw [(emitted_of_process_none (happ.trans hmore)).1, (emitted_of_process_none hmore).1]
  · rw [(emitted_of_process_some (happ.trans hmore)).1, (emitted_of_process_some hmore).1]

theorem auAsmReset_eq_fresh {st : AuAsm} (hau : st.auCap = simAuMax)
    (hpend : st.pendCap = simPendMax) : auAsmReset st = freshAsm := by
  rw [auAsmReset, hau, hpend]
  rfl

/-- **One turn** hands out the next access unit ahead, or reads on with the same
ahead, or finds the end of the file with nothing ahead and starts over. -/
theorem srcTurn_cases {s : FileSrc} (h : s.Ok) :
    (∃ o s', srcTurn file sizes s = (some o, s') ∧ s'.Ok ∧ s.ahead = o :: s'.ahead) ∨
    (∃ s', srcTurn file sizes s = (none, s') ∧ s'.Ok ∧ s'.ahead = s.ahead ∧
      s'.unread.length < s.unread.length) ∨
    (srcTurn file sizes s = (none, ⟨file, freshAsm, [], s.reads + 1⟩) ∧ s.ahead = []) := by
  rcases hrun : processNalus s.st s.inbuf with ⟨_ | o, rest, st⟩
  · obtain ⟨hahead, hnone, hcaps⟩ := emitted_of_process_none hrun
    have hsmall := h.small.process hrun
    have hlt := hsmall.length_lt hnone
    have hauCap := hcaps.1.trans h.auCap
    have hpendCap := hcaps.2.trans h.pendCap
    unfold srcTurn
    simp only [hrun, if_neg (Nat.not_le.mpr hlt)]
    generalize hn : readSize (sizes s.reads) (simIbufCap - rest.length) s.unread.length = n
    by_cases hpos : n > 0
    · rw [if_pos hpos]
      refine .inr (.inl ⟨_, rfl, ⟨?_, hauCap, hpendCap⟩, ?_, ?_⟩)
      · simpa only [List.append_assoc, List.take_append_drop] using hsmall
      · simp only [FileSrc.ahead, List.append_assoc, List.take_append_drop]
        exact (emitted_append_of_process_none hrun s.unread).symm
      · have havail : n ≤ s.unread.length := by
          rw [← hn, readSize]
          omega
        show (s.unread.drop n).length < s.unread.length
        rw [List.length_drop]
        omega
    · have hend : s.unread = [] := by
        rw [← List.length_eq_zero_iff]
        rw [readSize] at hn
        omega
      rw [if_neg hpos, auAsmReset_eq_fresh hauCap hpendCap]
      refine .inr (.inr ⟨rfl, ?_⟩)
      rw [FileSrc.ahead, hend, List.append_nil]
      exact hahead
  · have happ := (processNalus_append s.st s.inbuf s.unread).1 o rest st hrun
    obtain ⟨hahead, hcaps⟩ := emitted_of_process_some happ
    refine .inl ⟨o, { s with st := st, inbuf := rest }, by simp [srcTurn, hrun], ?_, hahead⟩
    exact ⟨h.small.process hrun, hcaps.1.trans h.auCap, hcaps.2.trans h.pendCap⟩

/-! ## one call -/

/-- What one pass over the file hands out. -/
def fileEmitted : List AuOut := emitted freshAsm (completeUnits file)

/-- The file starts over. -/
def FileSrc.restart (reads : Nat) : FileSrc := ⟨file, freshAsm, [], reads⟩

variable {file sizes}

theorem restart_ok (hfile : Small file) (reads : Nat) : (FileSrc.restart file reads).Ok :=
  ⟨hfile, rfl, rfl⟩

theorem srcNextAu_succ_none {s s' : FileSrc} (h : srcTurn file sizes s = (none, s')) (fuel : Nat) :
    srcNextAu file sizes (fuel + 1) s = srcNextAu file sizes fuel s' := by
  simp only [srcNextAu, h]

theorem srcNextAu_succ_some {s s' : FileSrc} {o : AuOut}
    (h : srcTurn file sizes s = (some o, s')) (fuel : Nat) :
    srcNextAu file sizes (fuel + 1) s = some (o, s') := by
  simp only [srcNextAu, h]

/-- A call returns the first access unit ahead; with none ahead it goes over to
the next pass. -/
theorem srcNextAu_returns {s : FileSrc} (h : s.Ok) (hfile : Small file) {o : AuOut}
    {os : List AuOut} (hahead : s.ahead = o :: os ∨ (s.ahead = [] ∧ fileEmitted file = o :: os)) :
    ∃ fuel s', srcNextAu file sizes fuel s = some (o, s') ∧ s'.Ok ∧ s'.ahead = os := by
  -- the file ends at most once on the way, when there was nothing ahead
  have hread : ∀ (t : FileSrc), t.Ok → t.ahead = o :: os →
      ∃ fuel s', srcNextAu file sizes fuel t = some (o, s') ∧ s'.Ok ∧ s'.ahead = os := by
    intro t
    induction hn : t.unread.length using Nat.strong_induction_on generalizing t with
    | h n ih =>
        intro ht hta
        rcases srcTurn_cases file sizes ht with
          ⟨o', s', hturn, hok, hs'⟩ | ⟨s', hturn, hok, hs', hlt⟩ | ⟨-, hnil⟩
        · rw [hta] at hs'
          obtain ⟨rfl, rfl⟩ := List.cons.inj hs'
          exact ⟨1, s', srcNextAu_succ_some hturn 0, hok, rfl⟩
        · obtain ⟨fuel, u, hu, huok, hua⟩ := ih _ (by omega) s' rfl hok (hs'.trans hta)
          exact ⟨fuel + 1, u, (srcNextAu_succ_none hturn fuel).trans hu, huok, hua⟩
        · rw [hnil] at hta
          cases hta
  rcases hahead with hahead | ⟨hnil, hnext⟩
  · exact hread s h hahead
  · induction hn : s.unread.length using Nat.strong_induction_on generalizing s with
    | h n ih =>
        rcases srcTurn_cases file sizes h with
          ⟨o', s', -, -, hs'⟩ | ⟨s', hturn, hok, hs', hlt⟩ | ⟨hturn, -⟩
        · rw [hnil] at hs'
          cases hs'
        · obtain ⟨fuel, u, hu, huok, hua⟩ := ih _ (by omega) hok (hs'.trans hnil) rfl
          exact ⟨fuel + 1, u, (srcNextAu_succ_none hturn fuel).trans hu, huok, hua⟩
        · obtain ⟨fuel, u, hu, huok, hua⟩ :=
            hread (FileSrc.restart file (s.reads + 1)) (restart_ok hfile _) hnext
          exact ⟨fuel + 1, u, (srcNextAu_succ_none hturn fuel).trans hu, huok, hua⟩

/-- With nothing ahead in this pass or the next, a call does not return. -/
theorem srcNextAu_never {s : FileSrc} (h : s.Ok) (hfile : Small file) (hahead : s.ahead = [])
    (hnext : fileEmitted file = []) (fuel : Nat) : srcNextAu file sizes fuel s = none := by
  induction fuel generalizing s with
  | zero => rfl
  | succ fuel ih =>
      rcases srcTurn_cases file sizes h with
        ⟨o', s', -, -, hs'⟩ | ⟨s', hturn, hok, hs', -⟩ | ⟨hturn, -⟩
      · rw [hahead] at hs'
        cases hs'
      · rw [srcNextAu_succ_none hturn]
        exact ih hok (hs'.trans hahead)
      · rw [srcNextAu_succ_none hturn]
        exact ih (restart_ok hfile (s.reads + 1)) hnext

/-- A call has one result. -/
theorem srcNextAu_unique {s : FileSrc} {r r' : AuOut × FileSrc} {a b : Nat}
    (h : srcNextAu file sizes a s = some r) (h' : srcNextAu file sizes b s = some r') : r = r' := by
  induction a generalizing b s with
  | zero => cases h
  | succ a ih =>
      cases b with
      | zero => cases h'
      | succ b =>
          rcases hturn : srcTurn file sizes s with ⟨_ | o, s'⟩
          · rw [srcNextAu_succ_none hturn] at h h'
            exact ih h h'
          · rw [srcNextAu_succ_some hturn] at h h'
            exact Option.some.inj (h.symm.trans h')

/-! ## call after call -/

/-- Where the source stands before call number `i`: behind the access units the
current pass has returned. -/
def AtCall (file : List UInt8) (i : Nat) (s : FileSrc) : Prop :=
  s.Ok ∧ (s.ahead = (fileEmitted file).drop (i % (fileEmitted file).length) ∨
    (s.ahead = [] ∧ i % (fileEmitted file).length = 0))

theorem atCall_init (hfile : Small file) : AtCall file 0 (FileSrc.init file) :=
  ⟨restart_ok hfile 0, .inl (by rw [Nat.zero_mod, List.drop_zero]; rfl)⟩

/-- **Call number `i`** returns what the pass hands out at that place. -/
theorem atCall_step {s : FileSrc} {i : Nat} (sizes : Nat → Nat) (hfile : Small file)
    (hsome : fileEmitted file ≠ []) (h : AtCall file i s) :
    ∃ fuel o s', srcNextAu file sizes fuel s = some (o, s') ∧
      (fileEmitted file)[i % (fileEmitted file).length]? = some o ∧ AtCall file (i + 1) s' := by
  have hpos : 0 < (fileEmitted file).length := List.length_pos_iff.mpr hsome
  have hlt := Nat.mod_lt i hpos
  obtain ⟨o, ho⟩ : ∃ o, (fileEmitted file)[i % (fileEmitted file).length]? = some o :=
    ⟨_, List.getElem?_eq_getElem hlt⟩
  have hdrop : (fileEmitted file).drop (i % (fileEmitted file).length) =
      o :: (fileEmitted file).drop (i % (fileEmitted file).length + 1) := by
    rw [List.drop_eq_getElem_cons hlt, ← List.getElem_of_getElem? ho |>.2]
  obtain ⟨hok, hahead⟩ := h
  have hnext : s.ahead = o :: (fileEmitted file).drop (i % (fileEmitted file).length + 1) ∨
      (s.ahead = [] ∧ fileEmitted file =
        o :: (fileEmitted file).drop (i % (fileEmitted file).length + 1)) := by
    rcases hahead with hahead | ⟨hnil, hzero⟩
    · exact .inl (hahead.trans hdrop)
    · refine .inr ⟨hnil, ?_⟩
      rw [hzero, List.drop_zero] at hdrop
      rw [hzero]
      exact hdrop
  obtain ⟨fuel, s', hcall, hok', hahead'⟩ := srcNextAu_returns hok hfile hnext
  refine ⟨fuel, o, s', hcall, ho, hok', ?_⟩
  rw [hahead', ← Nat.mod_add_mod]
  rcases Nat.lt_or_ge (i % (fileEmitted file).length + 1) (fileEmitted file).length with hin | hend
  · rw [Nat.mod_eq_of_lt hin]
    exact .inl rfl
  · have hlast : i % (fileEmitted file).length + 1 = (fileEmitted file).length := by omega
    rw [hlast, Nat.mod_self]
    exact .inr ⟨List.drop_length, rfl⟩

/-- The number of access units of a file: one for each VCL unit. -/
def auCount (file : List UInt8) : Nat := (fileUnits file).countP NalUnit.vcl

/-- **Looping repeats everything**: call number `i` returns access unit number
`i` of the file, counted round and round. -/
def Repeats (file : List UInt8) (sizes : Nat → Nat) : Prop :=
  ∃ src : Nat → FileSrc, src 0 = FileSrc.init file ∧
    ∀ i, ∃ fuel o, srcNextAu file sizes fuel (src i) = some (o, src (i + 1)) ∧
      (fileAus file)[i % auCount file]? = some o

/-- The calls repeat what one pass hands out. -/
theorem repeats_iff_emitted (hfile : Small file) (sizes : Nat → Nat) :
    Repeats file sizes ↔ fileEmitted file ≠ [] ∧
      ∀ i, (fileAus file)[i % auCount file]? =
        (fileEmitted file)[i % (fileEmitted file).length]? := by
  constructor
  · rintro ⟨src, hinit, hcalls⟩
    have hsome : fileEmitted file ≠ [] := by
      intro hnil
      obtain ⟨fuel, o, hcall, -⟩ := hcalls 0
      have hnone : srcNextAu file sizes fuel (FileSrc.init file) = none :=
        srcNextAu_never (restart_ok hfile 0) hfile hnil hnil fuel
      rw [hinit, hnone] at hcall
      cases hcall
    have hat : ∀ i, AtCall file i (src i) := by
      intro i
      induction i with
      | zero =>
          rw [hinit]
          exact atCall_init hfile
      | succ i ih =>
          obtain ⟨fuel, o, hcall, -⟩ := hcalls i
          obtain ⟨fuel', o', s', hcall', -, hnext⟩ := atCall_step sizes hfile hsome ih
          obtain ⟨-, rfl⟩ := Prod.mk.inj (srcNextAu_unique hcall hcall')
          exact hnext
    refine ⟨hsome, fun i => ?_⟩
    obtain ⟨fuel, o, hcall, ho⟩ := hcalls i
    obtain ⟨fuel', o', s', hcall', ho', -⟩ := atCall_step sizes hfile hsome (hat i)
    obtain ⟨rfl, -⟩ := Prod.mk.inj (srcNextAu_unique hcall hcall')
    rw [ho, ho']
  · rintro ⟨hsome, heq⟩
    choose fuel o next hcall ho hnext using
      fun (i : Nat) (s : FileSrc) (h : AtCall file i s) => atCall_step sizes hfile hsome h
    let run : (i : Nat) → {s : FileSrc // AtCall file i s} := fun i =>
      Nat.rec ⟨FileSrc.init file, atCall_init hfile⟩
        (fun i s => ⟨next i s.1 s.2, hnext i s.1 s.2⟩) i
    refine ⟨fun i => (run i).1, rfl, fun i => ?_⟩
    refine ⟨fuel i (run i).1 (run i).2, o i (run i).1 (run i).2, hcall i (run i).1 (run i).2, ?_⟩
    rw [heq i]
    exact ho i (run i).1 (run i).2

/-! ## what a pass hands out -/

theorem vcl_body {u : NalUnit} (h : u.vcl = true) : u.body ≠ [] := by
  intro hnil
  simp [NalUnit.vcl, NalUnit.type, hnil] at h

/-- The unit under assembly becomes the first access unit. -/
theorem gather_head (cur : List NalUnit) (key : Bool) (us : List NalUnit) :
    ∃ a ∈ gather cur key us, unitBytes id cur <+: a.bytes := by
  induction us generalizing cur key with
  | nil => exact ⟨⟨unitBytes id cur, key⟩, by simp [gather], List.prefix_refl _⟩
  | cons u us ih =>
      unfold gather
      split
      · exact ⟨⟨unitBytes id cur, key⟩, by simp, List.prefix_refl _⟩
      · obtain ⟨a, ha, hpre⟩ := ih (cur ++ [u]) key
        refine ⟨a, ha, List.IsPrefix.trans ?_ hpre⟩
        rw [unitBytes_append]
        exact List.prefix_append _ _

theorem length_gather (cur : List NalUnit) (key : Bool) (us : List NalUnit) :
    (gather cur key us).length = us.countP NalUnit.vcl + 1 := by
  induction us generalizing cur key with
  | nil => rfl
  | cons u us ih =>
      unfold gather
      by_cases h : u.vcl = true
      · rw [if_pos h, List.length_cons, ih, List.countP_cons_of_pos h]
      · rw [if_neg h, ih, List.countP_cons_of_neg h]

theorem length_accessUnits (pre us : List NalUnit) :
    (accessUnits pre us).length = us.countP NalUnit.vcl := by
  induction us generalizing pre with
  | nil => rfl
  | cons u us ih =>
      unfold accessUnits
      by_cases h : u.vcl = true
      · rw [if_pos h, length_gather, List.countP_cons_of_pos h]
      · rw [if_neg h, ih, List.countP_cons_of_neg h]

theorem countP_solid (us : List NalUnit) :
    (solid us).countP NalUnit.vcl = us.countP NalUnit.vcl := by
  rw [solid, List.countP_filter]
  refine List.countP_congr fun u _ => ?_
  constructor
  · intro h
    exact (Bool.and_eq_true _ _ ▸ h).1
  · intro h
    simp [h, vcl_body h]

theorem solid_cons_of_nil {u : NalUnit} (us : List NalUnit) (h : u.body = []) :
    solid (u :: us) = solid us := by simp [solid, h]

theorem solid_cons {u : NalUnit} (us : List NalUnit) (h : u.body ≠ []) :
    solid (u :: us) = u :: solid us := by simp [solid, h]

/-- Empty units change nothing. -/
theorem emitted_cons_of_nil {st : AuAsm} {u : NalUnit} (us : List NalUnit) (h : u.body = []) :
    emitted st (u :: us) = emitted st us := by
  have hfeed : auFeed st u = (none, st) := if_pos (by simp [h])
  simp only [emitted, hfeed]

/-- A unit that fits and ends nothing is taken. -/
theorem emitted_cons_of_room {st : AuAsm} {a a' : UnitAsm NalUnit} {u : NalUnit}
    (us : List NalUnit) (hst : Shows id st a) (hroom : st.Room u)
    (hfeed : unitFeed id a u = (none, a')) :
    emitted st (u :: us) = emitted (auFeed st u).2 us ∧ Shows id (auFeed st u).2 a' := by
  have hshows := @auFeed_shows _ id st a u hst hroom
  rw [hfeed] at hshows
  rcases hst' : auFeed st u with ⟨o, st'⟩
  simp only [id, hst'] at hshows
  obtain rfl : o = none := hshows.1
  exact ⟨by simp only [emitted, hst'], hshows.2⟩

/-- The unit under assembly is as large as its access unit at most. -/
theorem length_le_of_gather {cur us : List NalUnit} {key : Bool} {cap : Nat}
    (hfit : ∀ a ∈ gather cur key us, a.bytes.length ≤ cap) :
    (unitBytes id cur).length ≤ cap := by
  obtain ⟨a, ha, hpre⟩ := gather_head cur key us
  exact Nat.le_trans hpre.length_le (hfit a ha)

/-- **Behind a VCL unit**: every further VCL unit hands out an access unit of the
run; what stands behind the last one, `ws` included, makes no difference. -/
theorem emitted_gather {st : AuAsm} {cur ws : List NalUnit} {key : Bool} (us : List NalUnit)
    (hst : Shows id st ⟨cur, [], key, true⟩)
    (hfit : ∀ a ∈ gather cur key (solid us ++ ws), a.bytes.length ≤ st.auCap) :
    emitted st us = (gather cur key (solid us ++ ws)).take (us.countP NalUnit.vcl) := by
  induction us generalizing st cur key with
  | nil => rfl
  | cons u us ih =>
      by_cases hbody : u.body = []
      · have hvcl : ¬ u.vcl = true := fun h => vcl_body h hbody
        rw [solid_cons_of_nil us hbody] at hfit ⊢
        rw [List.countP_cons_of_neg hvcl, emitted_cons_of_nil us hbody, ih hst hfit]
      rw [solid_cons us hbody, List.cons_append] at hfit ⊢
      by_cases hvcl : u.vcl = true
      · -- the access unit ends and `u` begins the next one
        have hend : auFeed st u = (some ⟨st.au, st.key⟩, auAsmReset st) := by
          simp [auFeed, hbody, hvcl, hst.hasVcl]
        rw [gather, if_pos hvcl] at hfit ⊢
        have hfit' := fun a ha => hfit a (List.mem_cons_of_mem _ ha)
        have hone := length_le_of_gather hfit'
        rw [unitBytes_singleton] at hone
        have hroom : (auAsmReset st).Room u := by
          refine .inr (.inr ?_)
          rw [if_pos hvcl]
          simpa [auAsmReset] using hone
        obtain ⟨-, hshows⟩ :=
          @emitted_cons_of_room (auAsmReset st) ⟨[], [], false, false⟩ ⟨[u], [], u.type = 5, true⟩ u
            us ⟨rfl, rfl, rfl, rfl⟩ hroom (by simp [unitFeed, hbody, hvcl])
        have hcap : (auFeed (auAsmReset st) u).2.auCap = st.auCap := (auFeed_caps _ u).1
        simp only [emitted, hend]
        rw [List.countP_cons_of_pos hvcl, List.take_succ_cons, ih hshows (hcap ▸ hfit'), hst.au,
          hst.key]
      · rw [gather, if_neg hvcl] at hfit ⊢
        have hlen := length_le_of_gather hfit
        rw [unitBytes_append, unitBytes_singleton, ← hst.au, List.length_append] at hlen
        have hroom : st.Room u := by
          refine .inr (.inr ?_)
          rw [if_neg hvcl, if_pos hst.hasVcl]
          exact hlen
        obtain ⟨hemit, hshows⟩ :=
          @emitted_cons_of_room st _ ⟨cur ++ [u], [], key, true⟩ u us hst hroom
            (by simp [unitFeed, hbody, hvcl])
        have hcap : (auFeed st u).2.auCap = st.auCap := (auFeed_caps st u).1
        rw [hemit, List.countP_cons_of_neg hvcl, ih hshows (hcap ▸ hfit)]

/-- **Before the first VCL unit**: it hands out nothing, every further one does. -/
theorem emitted_accessUnits {st : AuAsm} {pre ws : List NalUnit} (us : List NalUnit)
    (hst : Shows id st ⟨[], pre, false, false⟩)
    (hau : ∀ a ∈ accessUnits pre (solid us ++ ws), a.bytes.length ≤ st.auCap)
    (hpend : (unitBytes id (pre ++ (solid us ++ ws).takeWhile fun u => !u.vcl)).length ≤
      st.pendCap) :
    emitted st us = (accessUnits pre (solid us ++ ws)).take (us.countP NalUnit.vcl - 1) := by
  induction us generalizing st pre with
  | nil => rfl
  | cons u us ih =>
      by_cases hbody : u.body = []
      · have hvcl : ¬ u.vcl = true := fun h => vcl_body h hbody
        rw [solid_cons_of_nil us hbody] at hau hpend ⊢
        rw [List.countP_cons_of_neg hvcl, emitted_cons_of_nil us hbody, ih hst hau hpend]
      rw [solid_cons us hbody, List.cons_append] at hau hpend ⊢
      by_cases hvcl : u.vcl = true
      · rw [accessUnits, if_pos hvcl] at hau ⊢
        have hlen := length_le_of_gather hau
        rw [unitBytes_append, unitBytes_singleton, List.length_append] at hlen
        have hroom : st.Room u := by
          refine .inr (.inr ?_)
          rw [if_pos hvcl, hst.au, hst.pend]
          simpa using hlen
        obtain ⟨hemit, hshows⟩ :=
          @emitted_cons_of_room st _ ⟨pre ++ [u], [], u.type = 5, true⟩ u us hst hroom
            (by simp [unitFeed, hbody, hvcl])
        have hcap : (auFeed st u).2.auCap = st.auCap := (auFeed_caps st u).1
        rw [hemit, emitted_gather us hshows (hcap ▸ hau), List.countP_cons_of_pos hvcl,
          Nat.add_sub_cancel]
      · rw [accessUnits, if_neg hvcl] at hau ⊢
        have hwhile : (u :: (solid us ++ ws)).takeWhile (fun u => !u.vcl) =
            u :: (solid us ++ ws).takeWhile fun u => !u.vcl := by
          simp [hvcl]
        rw [hwhile, List.append_cons] at hpend
        have hlen : (unitBytes id (pre ++ [u])).length ≤ st.pendCap := by
          rw [unitBytes_append, List.length_append] at hpend
          omega
        rw [unitBytes_append, unitBytes_singleton, ← hst.pend, List.length_append] at hlen
        have hroom : st.Room u := by
          refine .inr (.inr ?_)
          rw [if_neg hvcl, if_neg (by simp [hst.hasVcl])]
          exact hlen
        obtain ⟨hemit, hshows⟩ :=
          @emitted_cons_of_room st _ ⟨[], pre ++ [u], false, false⟩ u us hst hroom
            (by simp [unitFeed, hbody, hvcl])
        obtain ⟨hcap, hcap'⟩ := auFeed_caps st u
        rw [hemit, List.countP_cons_of_neg hvcl, ih hshows (hcap ▸ hau) (hcap' ▸ hpend)]

/-! ## the loop at the end of the file -/

/-- The file fits: from a start code on, every NAL unit with a start code behind
it fits the input buffer, what stands before the first VCL unit fits the pending
buffer, and every access unit fits the assembly buffer. -/
structure FileFits (file : List UInt8) : Prop where
  small : Small file
  pend : (unitBytes id ((solid (fileUnits file)).takeWhile fun u => !u.vcl)).length ≤ simPendMax
  au : ∀ a ∈ fileAus file, a.bytes.length ≤ simAuMax

/-- One less than the VCL units that have a start code behind them. -/
def passCount (file : List UInt8) : Nat := (completeUnits file).countP NalUnit.vcl - 1

/-- **One pass** hands out the first access units of the file, without the one
the last complete VCL unit begins and those behind it. -/
theorem fileEmitted_eq (hfit : FileFits file) :
    fileEmitted file = (fileAus file).take (passCount file) := by
  have hsplit : solid (fileUnits file) =
      solid (completeUnits file) ++ solid (lastUnit (leftover file)) := by
    simp [solid, fileUnits]
  have hau := hfit.au
  have hpend := hfit.pend
  rw [fileAus, hsplit] at hau ⊢
  rw [hsplit] at hpend
  exact emitted_accessUnits (completeUnits file) ⟨rfl, rfl, rfl, rfl⟩ hau hpend

theorem length_fileAus (file : List UInt8) : (fileAus file).length = auCount file := by
  rw [fileAus, length_accessUnits, countP_solid, auCount]

theorem passCount_le (file : List UInt8) : passCount file ≤ auCount file := by
  rw [passCount, auCount, fileUnits, List.countP_append]
  omega

/-- **The loop repeats every access unit exactly if the lost ones do not show**:
at least one access unit is handed out in each pass, and counting round the
first `passCount` of the file's access units gives the same as counting round
all of them. -/
theorem file_loop_repeats_iff {file : List UInt8} (hfit : FileFits file) (sizes : Nat → Nat) :
    Repeats file sizes ↔ 1 ≤ passCount file ∧
      ∀ i, (fileAus file)[i % auCount file]? = (fileAus file)[i % passCount file]? := by
  have hlen : (fileEmitted file).length = passCount file := by
    rw [fileEmitted_eq hfit, List.length_take, length_fileAus, Nat.min_eq_left (passCount_le file)]
  rw [repeats_iff_emitted hfit.small, hlen, ← List.length_pos_iff, hlen]
  refine and_congr_right fun hpos => forall_congr' fun i => ?_
  rw [fileEmitted_eq hfit, List.getElem?_take_of_lt (Nat.mod_lt i hpos)]

/-- Three slices. -/
def threeSlices : List UInt8 := [0, 0, 1, 0x65, 0xaa, 0, 0, 1, 0x41, 0xbb, 0, 0, 1, 0x41, 0xcc]

theorem threeSlices_fits : FileFits threeSlices where
  small := ⟨⟨3, .inl rfl, by decide⟩, by decide +kernel⟩
  pend := by decide +kernel
  au := by decide +kernel

theorem file_loop_repeats_iff_threeSlices :
    Repeats threeSlices (fun _ => 4) ↔ 1 ≤ passCount threeSlices ∧
      ∀ i, (fileAus threeSlices)[i % auCount threeSlices]? =
        (fileAus threeSlices)[i % passCount threeSlices]? :=
  file_loop_repeats_iff threeSlices_fits (fun _ => 4)

/-- Looping loses and repeats nothing, whatever the file and the reads. -/
def LoopRepeats : Prop :=
  ∀ file sizes, 1 ≤ auCount file → FileFits file → Repeats file sizes

/-- Of three slices, each pass returns the first only. -/
theorem loopRepeats_fails : ¬ LoopRepeats := by
  intro h
  have hrep := h threeSlices (fun _ => 4) (by decide +kernel) threeSlices_fits
  have hsecond := ((repeats_iff_emitted threeSlices_fits.small _).mp hrep).2 1
  revert hsecond
  decide +kernel

end Vmc
