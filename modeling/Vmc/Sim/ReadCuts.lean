import Vmc.Sim.PipeSource

/-!
# Vmc.Sim.ReadCuts

The access units of the live source do not depend on how the pipe's bytes were
cut into reads, and nothing is lost between them.

What is found in a buffer is found in every longer one, so a drain of what has
been read, followed by a drain of the rest with more behind it, does what one
drain of everything does (`Drains.append`).  A run is therefore one drain of its
stream, and what it sends is read off that.
-/

namespace Vmc

open Run

/-! ## drains -/

section

variable {σ ω : Type*} (feed : σ → Found → Option ω × σ)

/-- The loop around `process_nalus`, unit by unit, run until no complete unit is
left: from a consumer and a buffer, what is handed out, the rest of the buffer
and the consumer afterwards. -/
inductive Drains : σ → List UInt8 → List ω → List UInt8 → σ → Prop where
  | done {s : σ} {buf : List UInt8} : nextUnit buf = none → Drains s buf [] buf s
  | go {s s' t : σ} {buf rest : List UInt8} {os : List ω} {f : Found} :
      nextUnit buf = some f → feed s f = (none, s') → Drains s' f.rest os rest t →
      Drains s buf os rest t
  | stop {s s' t : σ} {buf rest : List UInt8} {o : ω} {os : List ω} {f : Found} :
      nextUnit buf = some f → feed s f = (some o, s') → Drains s' f.start os rest t →
      Drains s buf (o :: os) rest t

variable {feed} {s t t' : σ} {buf rest rest' : List UInt8} {os os' : List ω}

/-- A drain has one outcome. -/
theorem Drains.unique (h : Drains feed s buf os rest t) (h' : Drains feed s buf os' rest' t') :
    os = os' ∧ rest = rest' ∧ t = t' := by
  induction h generalizing os' with
  | done hnone =>
      cases h' with
      | done _ => exact ⟨rfl, rfl, rfl⟩
      | go hf _ _ => rw [hnone] at hf; cases hf
      | stop hf _ _ => rw [hnone] at hf; cases hf
  | go hf hfeed _ ih =>
      cases h' with
      | done hnone => rw [hf] at hnone; cases hnone
      | go hf' hfeed' h' =>
          obtain rfl := Option.some.inj (hf.symm.trans hf')
          cases hfeed.symm.trans hfeed'
          exact ih h'
      | stop hf' hfeed' _ =>
          obtain rfl := Option.some.inj (hf.symm.trans hf')
          cases hfeed.symm.trans hfeed'
  | stop hf hfeed _ ih =>
      cases h' with
      | done hnone => rw [hf] at hnone; cases hnone
      | go hf' hfeed' _ =>
          obtain rfl := Option.some.inj (hf.symm.trans hf')
          cases hfeed.symm.trans hfeed'
      | stop hf' hfeed' h' =>
          obtain rfl := Option.some.inj (hf.symm.trans hf')
          cases hfeed.symm.trans hfeed'
          obtain ⟨rfl, rfl, rfl⟩ := ih h'
          exact ⟨rfl, rfl, rfl⟩

/-- **Drains compose**: for a consumer that looks at the units only, a drain of
what is there and one of the rest with more behind it are one drain. -/
theorem Drains.append (hunit : ∀ s f g, f.unit = g.unit → feed s f = feed s g) {more : List UInt8}
    (h : Drains feed s buf os rest t) (h' : Drains feed t (rest ++ more) os' rest' t') :
    Drains feed s (buf ++ more) (os ++ os') rest' t' := by
  induction h with
  | done _ => exact h'
  | go hf hfeed _ ih =>
      exact .go (nextUnit_append more hf) (by rw [← hfeed]; exact hunit _ _ _ rfl) (ih h')
  | stop hf hfeed _ ih =>
      exact .stop (nextUnit_append more hf) (by rw [← hfeed]; exact hunit _ _ _ rfl) (ih h')

/-- A drain seen through a projection of the consumer. -/
theorem Drains.map {τ ω' : Type*} {feed' : τ → Found → Option ω' × τ} (π : σ → τ) (out : ω → ω')
    (hfeed : ∀ s f, feed' (π s) f = ((feed s f).1.map out, π (feed s f).2))
    (h : Drains feed s buf os rest t) : Drains feed' (π s) buf (os.map out) rest (π t) := by
  induction h with
  | done hnone => exact .done hnone
  | go hf hs _ ih => exact .go hf (by rw [hfeed, hs]; rfl) ih
  | stop hf hs _ ih => exact .stop hf (by rw [hfeed, hs]; rfl) ih

/-- The loop of `run_pipe_source` is a drain. -/
theorem drains_drainUnits (hfresh : ∀ s f o s', feed s f = (some o, s') → Fresh feed s')
    (s : σ) (buf : List UInt8) :
    Drains feed s buf (drainUnits feed (buf.length + 1) s buf).1
      (drainUnits feed (buf.length + 1) s buf).2.1 (drainUnits feed (buf.length + 1) s buf).2.2 := by
  have hdone := @drainUnits_done σ ω feed s buf hfresh _ (.inl (Nat.lt_succ_self buf.length))
  have hrun := @drainUnits_invariant σ ω feed s buf
    (fun os t b => ∀ os' rest u, Drains feed t b os' rest u → Drains feed s buf (os ++ os') rest u)
    (fun os t b f t' hI hf hfeed os' rest u h => hI os' rest u (.go hf hfeed h))
    (fun os t b f o t' hI hf hfeed os' rest u h => by
      rw [List.append_assoc]
      exact hI (o :: os') rest u (.stop hf hfeed h))
    [] (buf.length + 1) (fun os' rest u h => h)
  simpa using hrun [] _ _ (.done hdone)

end

/-! ## a run is one drain -/

/-- `au_feed`, remembering whether there was room. -/
def roomFeed (p : AuAsm × Bool) (f : Found) : Option AuOut × AuAsm × Bool :=
  ((auFeed p.1 f.unit).1, (auFeed p.1 f.unit).2, p.2 || !decide (p.1.Room f.unit))

/-- The assembler without the places of its units. -/
def PipeAsm.plain (p : PipeAsm) : AuAsm × Bool := (p.st, p.overrun)

/-- The bytes an event delivers. -/
def PipeEvent.bytes : PipeEvent → List UInt8
  | .read bytes => bytes
  | .again | .eof => []

/-- The pipe has not ended. -/
def PipeEvent.Goes : PipeEvent → Prop
  | .eof => False
  | .read _ | .again => True

namespace PipeSource

theorem drains_drain (s : PipeSource) : ∃ sent, s.drain.sent = s.sent ++ sent ∧
    Drains roomFeed s.asm.plain s.inbuf (sent.map SentAu.out) s.drain.inbuf s.drain.asm.plain := by
  have hplain : ∀ p f, roomFeed (PipeAsm.plain p) f =
      ((pipeFeed s.past.length s.stream p f).1.map SentAu.out,
        (pipeFeed s.past.length s.stream p f).2.plain) := by
    intro p f
    refine Prod.ext ?_ rfl
    simp [roomFeed, pipeFeed, PipeAsm.plain, Function.comp_def]
  exact ⟨_, rfl, (drains_drainUnits (fun _ _ _ _ h => fresh_pipeFeed h) s.asm s.inbuf).map
    PipeAsm.plain SentAu.out hplain⟩

/-- What was sent, and what is left, is what one drain of the stream gives. -/
def OneDrain (s : PipeSource) : Prop :=
  Drains roomFeed init.asm.plain s.stream (s.sent.map SentAu.out) s.inbuf s.asm.plain

/-- A drain behind more bytes. -/
theorem oneDrain_drain {s : PipeSource} (h : s.OneDrain) (bytes : List UInt8) :
    { s with inbuf := s.inbuf ++ bytes, stream := s.stream ++ bytes }.drain.OneDrain := by
  obtain ⟨sent, hsent, hdrain⟩ :=
    drains_drain { s with inbuf := s.inbuf ++ bytes, stream := s.stream ++ bytes }
  have hall := Drains.append (fun p f g hfg => by rw [roomFeed, roomFeed, hfg]) h hdrain
  rw [← List.map_append] at hall
  rw [OneDrain, hsent]
  exact hall

theorem step_reads {s s' : PipeSource} {e : PipeEvent} (he : e.Goes) (h : s.step e = some s') :
    s' = { s with inbuf := s.inbuf ++ e.bytes, stream := s.stream ++ e.bytes }.drain := by
  cases e with
  | eof => cases he
  | again =>
      rw [← Option.some.inj h]
      simp [PipeEvent.bytes]
  | read bytes =>
      simp only [step] at h
      split at h
      · exact (Option.some.inj h).symm
      · cases h

/-- **A run is one drain** of everything it read. -/
theorem oneDrain_run {es : List PipeEvent} {s s' : PipeSource} (hs : s.OneDrain)
    (hgoes : ∀ e ∈ es, e.Goes) (h : exec step s es = some s') :
    s'.OneDrain ∧ s'.stream = s.stream ++ es.flatMap PipeEvent.bytes := by
  induction es generalizing s with
  | nil =>
      obtain rfl := Option.some.inj h
      exact ⟨hs, by simp⟩
  | cons e es ih =>
      obtain ⟨t, ht, hrest⟩ := (exec_cons_eq_some step).mp h
      obtain rfl := step_reads (hgoes e (List.mem_cons_self ..)) ht
      obtain ⟨hone, hstream⟩ := ih (oneDrain_drain hs e.bytes)
        (fun e' he' => hgoes e' (List.mem_cons_of_mem e he')) hrest
      refine ⟨hone, ?_⟩
      rw [hstream, List.flatMap_cons, ← List.append_assoc]
      rfl

end PipeSource

/-! ## the stream without its empty units -/

/-- The length of the start code at the front, if there is one. -/
def startAt (buf : List UInt8) : Option Nat :=
  if (startCode 3).isPrefixOf buf then some 3
  else if (startCode 4).isPrefixOf buf then some 4
  else none

/-- The stream behind `skip` bytes with its empty units removed: a start code goes
if another follows it directly. -/
def stripFrom : Nat → List UInt8 → List UInt8
  | _, [] => []
  | skip + 1, _ :: bs => stripFrom skip bs
  | 0, b :: bs =>
      match startAt (b :: bs) with
      | none => b :: stripFrom 0 bs
      | some slen =>
          if (startAt ((b :: bs).drop slen)).isSome then stripFrom (slen - 1) bs
          else b :: stripFrom 0 bs

def stripEmpty (stream : List UInt8) : List UInt8 := stripFrom 0 stream

theorem stripFrom_eq_drop (skip : Nat) (bs : List UInt8) :
    stripFrom skip bs = stripEmpty (bs.drop skip) := by
  induction skip generalizing bs with
  | zero => rfl
  | succ skip ih =>
      cases bs with
      | nil => rfl
      | cons b bs => exact ih bs

/-- A byte that no empty unit starts at stays. -/
theorem stripEmpty_keep {b : UInt8} {bs : List UInt8}
    (h : ∀ slen, startAt (b :: bs) = some slen → startAt ((b :: bs).drop slen) = none) :
    stripEmpty (b :: bs) = b :: stripEmpty bs := by
  rw [stripEmpty, stripFrom]
  split
  · rfl
  · next slen hslen => rw [if_neg (by rw [h slen hslen]; simp), stripEmpty]

theorem startAt_eq_some {buf : List UInt8} {slen : Nat} (h : startAt buf = some slen) :
    (slen = 3 ∨ slen = 4) ∧ buf = startCode slen ++ buf.drop slen := by
  unfold startAt at h
  split at h
  · next hpre =>
      obtain rfl := Option.some.inj h
      obtain ⟨after, rfl⟩ := List.isPrefixOf_iff_prefix.mp hpre
      exact ⟨.inl rfl, rfl⟩
  · split at h
    · next hpre =>
        obtain rfl := Option.some.inj h
        obtain ⟨after, rfl⟩ := List.isPrefixOf_iff_prefix.mp hpre
        exact ⟨.inr rfl, rfl⟩
    · cases h

theorem findStart_of_startAt {buf : List UInt8} {slen : Nat} (h : startAt buf = some slen) :
    findStart buf = some (0, slen) := by
  obtain ⟨hs, hbuf⟩ := startAt_eq_some h
  exact findStart_of_isPrefixOf hs ⟨_, hbuf.symm⟩

theorem findStart_cons {b : UInt8} {bs : List UInt8} (h : startAt (b :: bs) = none) :
    findStart (b :: bs) = (findStart bs).map fun (i, slen) => (i + 1, slen) := by
  rw [startAt] at h
  split_ifs at h with h3 h4
  rw [findStart, if_neg h3, if_neg h4]

theorem startAt_of_findStart {buf : List UInt8} {n slen : Nat}
    (h : findStart buf = some (n, slen)) :
    startAt (buf.drop n) = some slen := by
  obtain ⟨hs, t, ht⟩ := findStart_eq_some h
  rw [← ht]
  rcases hs with rfl | rfl <;> simp [startAt, startCode]

theorem startAt_of_findStart_none {buf : List UInt8} (h : findStart buf = none) :
    startAt buf = none := by
  cases hs : startAt buf with
  | none => rfl
  | some slen =>
      rw [findStart_of_startAt hs] at h
      cases h

/-- An empty unit in front goes. -/
theorem stripEmpty_drop {slen : Nat} {buf : List UInt8} (h : startAt buf = some slen)
    (hnext : (startAt (buf.drop slen)).isSome) : stripEmpty buf = stripEmpty (buf.drop slen) := by
  obtain ⟨hs, hbuf⟩ := startAt_eq_some h
  obtain ⟨k, rfl⟩ : ∃ k, slen = k + 1 := ⟨slen - 1, by omega⟩
  cases buf with
  | nil => cases h
  | cons b bs =>
      rw [stripEmpty, stripFrom, h]
      simp only [hnext, if_true]
      exact stripFrom_eq_drop k bs

/-- A start code with something else behind it stays. -/
theorem stripEmpty_code {slen : Nat} {after : List UInt8} (hs : slen = 3 ∨ slen = 4)
    (h : startAt after = none) :
    stripEmpty (startCode slen ++ after) = startCode slen ++ stripEmpty after := by
  -- the last three bytes of a long start code are a short one, with the same behind it
  have hshort : stripEmpty (0 :: 0 :: 1 :: after) = 0 :: 0 :: 1 :: stripEmpty after := by
    rw [stripEmpty_keep, stripEmpty_keep, stripEmpty_keep]
    · simp [startAt, startCode]
    · simp [startAt, startCode]
    · intro slen hslen
      have : slen = 3 := by simpa [startAt, startCode] using hslen.symm
      rw [this]
      exact h
  rcases hs with rfl | rfl
  · exact hshort
  · have hlong : stripEmpty (0 :: 0 :: 0 :: 1 :: after) =
        0 :: stripEmpty (0 :: 0 :: 1 :: after) := by
      refine stripEmpty_keep ?_
      intro slen hslen
      have : slen = 4 := by simpa [startAt, startCode] using hslen.symm
      rw [this]
      exact h
    exact hlong.trans (by rw [hshort]; rfl)

/-- Without a start code nothing goes. -/
theorem stripEmpty_of_none {buf : List UInt8} (h : findStart buf = none) :
    stripEmpty buf = buf := by
  induction buf with
  | nil => rfl
  | cons b bs ih =>
      have hat := startAt_of_findStart_none h
      rw [findStart_cons hat, Option.map_eq_none_iff] at h
      rw [stripEmpty_keep (by simp [hat]), ih h]

/-- What is in front of the first start code stays. -/
theorem stripEmpty_body {buf : List UInt8} {n slen : Nat} (h : findStart buf = some (n, slen)) :
    stripEmpty buf = buf.take n ++ stripEmpty (buf.drop n) := by
  induction buf generalizing n with
  | nil => cases h
  | cons b bs ih =>
      cases hat : startAt (b :: bs) with
      | some k =>
          rw [findStart_of_startAt hat] at h
          cases h
          rfl
      | none =>
          rw [findStart_cons hat] at h
          obtain ⟨⟨m, k⟩, hm, heq⟩ := Option.map_eq_some_iff.mp h
          cases heq
          rw [stripEmpty_keep (by simp [hat]), ih hm]
          rfl

/-! ## the units of an aligned buffer -/

/-- A unit of a stream: between two start codes, without one of its own. -/
def NalUnit.Proper (u : NalUnit) : Prop := (u.slen = 3 ∨ u.slen = 4) ∧ findStart u.body = none

/-- The bytes of a unit, if it is not empty. -/
def NalUnit.kept (u : NalUnit) : List UInt8 := if u.body.length = 0 then [] else u.bytes

/-- There is no start code in front of the first one. -/
theorem findStart_take {buf : List UInt8} {n slen : Nat} (h : findStart buf = some (n, slen)) :
    findStart (buf.take n) = none := by
  cases hr : findStart (buf.take n) with
  | none => rfl
  | some r =>
      have hsame := findStart_append (buf.drop n) hr
      rw [List.take_append_drop, h] at hsame
      obtain rfl := Option.some.inj hsame
      have hle := findStart_le hr
      have hs := (findStart_eq_some hr).1
      rw [List.length_take] at hle
      omega

/-- **The next unit** of a buffer that begins with a start code. -/
theorem nextUnit_aligned {buf : List UInt8} {f : Found} (hat : (startAt buf).isSome)
    (h : nextUnit buf = some f) : f.start = buf ∧ f.unit.Proper ∧ (startAt f.rest).isSome ∧
      stripEmpty buf = f.unit.kept ++ stripEmpty f.rest := by
  obtain ⟨slen, hslen⟩ := Option.isSome_iff_exists.mp hat
  obtain ⟨hs, hbuf⟩ := startAt_eq_some hslen
  unfold nextUnit at h
  split at h
  · cases h
  rw [findStart_of_startAt hslen, Option.bind_some] at h
  obtain ⟨⟨n, k⟩, hn, rfl⟩ := Option.map_eq_some_iff.mp h
  rw [Nat.zero_add] at hn ⊢
  generalize buf.drop slen = after at hn hbuf ⊢
  have hle := findStart_le hn
  have hk := (findStart_eq_some hn).1
  have hrest := startAt_of_findStart hn
  have hlen : (after.take n).length = n := by
    rw [List.length_take]
    omega
  refine ⟨rfl, ⟨hs, findStart_take hn⟩, by rw [hrest]; rfl, ?_⟩
  by_cases hzero : n = 0
  · subst hzero
    have hdrop : buf.drop slen = after := by rw [hbuf, List.drop_left' (length_startCode hs)]
    rw [stripEmpty_drop hslen (by rw [hdrop]; exact Option.isSome_iff_exists.mpr ⟨k, hrest⟩), hdrop,
      NalUnit.kept, if_pos hlen]
    rfl
  · have hno : startAt after = none := by
      cases hsome : startAt after with
      | none => rfl
      | some j =>
          rw [findStart_of_startAt hsome] at hn
          cases hn
          contradiction
    rw [hbuf, stripEmpty_code hs hno, stripEmpty_body hn, NalUnit.kept,
      if_neg (by rw [hlen]; exact hzero),
      NalUnit.bytes, List.append_assoc]

/-- Nothing goes from what is left in the end. -/
theorem stripEmpty_of_nextUnit_none {buf : List UInt8} (hat : (startAt buf).isSome)
    (h : nextUnit buf = none) : stripEmpty buf = buf := by
  obtain ⟨slen, hslen⟩ := Option.isSome_iff_exists.mp hat
  obtain ⟨hs, hbuf⟩ := startAt_eq_some hslen
  have hnone : findStart (buf.drop slen) = none := by
    unfold nextUnit at h
    split at h
    · next hshort =>
        obtain ⟨rfl, heq⟩ := findStart_short hshort (findStart_of_startAt hslen)
        cases heq
        rfl
    · rw [findStart_of_startAt hslen, Option.bind_some, Option.map_eq_none_iff, Nat.zero_add] at h
      exact h
  rw [hbuf, stripEmpty_code hs (startAt_of_findStart_none hnone), stripEmpty_of_none hnone]

/-! ## the assembler -/

/-- What the assembler holds: at most one VCL unit, the one the key flag is
about, and everything kept back waits for it. -/
structure UnitAsm.Sound (a : UnitAsm NalUnit) : Prop where
  tidy : a.Tidy
  empty : a.hasVcl = false → a.au = []
  waiting : ∀ u ∈ a.pend, u.vcl = false
  one : a.hasVcl = true → ∃ u, a.au.filter NalUnit.vcl = [u] ∧ a.key = decide (u.type = 5)
  proper : ∀ u ∈ a.all, u.Proper

/-- An access unit as it should be: made of units of the stream, exactly one of
them VCL, and a key frame if that one is of type 5. -/
def AuOut.Good (o : AuOut) : Prop :=
  ∃ units : List NalUnit, o.bytes = unitBytes id units ∧ (∀ u ∈ units, u.Proper) ∧
    ∃ u, units.filter NalUnit.vcl = [u] ∧ o.key = decide (u.type = 5)

/-- A unit with a body that is added behind what is held. -/
theorem UnitAsm.Sound.add {a a' : UnitAsm NalUnit} (ha : a.Sound) {u : NalUnit} (hu : u.Proper)
    (hbody : u.body.length ≠ 0) (hall : a'.all = a.all ++ [u]) :
    (∀ v ∈ a'.all, v.Proper) ∧ unitBytes id a'.all = unitBytes id a.all ++ u.kept := by
  rw [hall]
  constructor
  · intro v hv
    rcases List.mem_append.mp hv with hv | hv
    · exact ha.proper v hv
    · obtain rfl := List.mem_singleton.mp hv
      exact hu
  · rw [unitBytes_append, unitBytes_singleton, NalUnit.kept, if_neg hbody]
    rfl

/-- **One unit**: it is added to what is held unless it is empty, or it ends the
access unit, which is as it should be. -/
theorem sound_unitFeed {a : UnitAsm NalUnit} (ha : a.Sound) {u : NalUnit} (hu : u.Proper) :
    (unitFeed id a u).2.Sound ∧
      (((unitFeed id a u).1 = none ∧
          unitBytes id (unitFeed id a u).2.all = unitBytes id a.all ++ u.kept) ∨
        ∃ key, (unitFeed id a u).1 = some (a.all, key) ∧ (unitFeed id a u).2.all = [] ∧
          AuOut.Good ⟨unitBytes id a.all, key⟩) := by
  simp only [unitFeed, id]
  by_cases hempty : u.body.length = 0
  · rw [if_pos hempty]
    exact ⟨ha, .inl ⟨rfl, by simp [NalUnit.kept, hempty]⟩⟩
  rw [if_neg hempty]
  cases hhas : a.hasVcl with
  | true =>
      have hpend : a.pend = [] := ha.tidy hhas
      have hau : a.all = a.au := by rw [UnitAsm.all, hpend, List.append_nil]
      obtain ⟨w, hw, hkey⟩ := ha.one hhas
      by_cases hvcl : u.vcl = true
      · rw [if_pos ⟨hvcl, rfl⟩]
        refine ⟨⟨fun h => (by cases h), fun _ => rfl, by simp, fun h => (by cases h),
          by simp [UnitAsm.all]⟩, .inr ⟨a.key, by rw [hau], rfl, ?_⟩⟩
        exact ⟨a.all, rfl, ha.proper, w, by rw [hau, hw], hkey⟩
      · rw [if_neg (fun h => hvcl h.1), if_neg hvcl, if_pos rfl]
        have hadd : (UnitAsm.mk (a.au ++ [u]) a.pend a.key true).all = a.all ++ [u] := by
          simp [UnitAsm.all, hpend]
        obtain ⟨hproper, hkept⟩ := ha.add hu hempty hadd
        refine ⟨⟨fun _ => hpend, fun h => (by cases h), ha.waiting, fun _ => ⟨w, ?_, hkey⟩,
          hproper⟩, .inl ⟨rfl, hkept⟩⟩
        simp [hw, hvcl]
  | false =>
      have hau : a.au = [] := ha.empty hhas
      by_cases hvcl : u.vcl = true
      · rw [if_neg (by simp), if_pos hvcl]
        have hadd : (UnitAsm.mk (a.au ++ a.pend ++ [u]) [] (decide (u.type = 5)) true).all =
            a.all ++ [u] := by
          simp [UnitAsm.all]
        have hwait : a.pend.filter NalUnit.vcl = [] := by
          simpa [List.filter_eq_nil_iff] using ha.waiting
        obtain ⟨hproper, hkept⟩ := ha.add hu hempty hadd
        refine ⟨⟨fun _ => rfl, fun h => (by cases h), by simp, fun _ => ⟨u, ?_, rfl⟩, hproper⟩,
          .inl ⟨rfl, hkept⟩⟩
        simp [hau, hwait, hvcl]
      · rw [if_neg (by simp), if_neg hvcl, if_neg (by simp)]
        have hadd : (UnitAsm.mk a.au (a.pend ++ [u]) a.key false).all = a.all ++ [u] := by
          simp [UnitAsm.all]
        obtain ⟨hproper, hkept⟩ := ha.add hu hempty hadd
        refine ⟨⟨fun h => (by cases h), fun _ => hau, ?_, fun h => (by cases h), hproper⟩,
          .inl ⟨rfl, hkept⟩⟩
        intro v hv
        rcases List.mem_append.mp hv with hv | hv
        · exact ha.waiting v hv
        · obtain rfl := List.mem_singleton.mp hv
          simpa using hvcl

/-- A flag raised stays raised. -/
theorem Drains.room {p t : AuAsm × Bool} {buf rest : List UInt8} {os : List AuOut}
    (h : Drains roomFeed p buf os rest t) (ht : t.2 = false) : p.2 = false := by
  induction h with
  | done _ => exact ht
  | go _ hfeed _ ih =>
      have hor := ih ht
      rw [← congrArg (fun r => r.2.2) hfeed] at hor
      exact (Bool.or_eq_false_iff.mp hor).1
  | stop _ hfeed _ ih =>
      have hor := ih ht
      rw [← congrArg (fun r => r.2.2) hfeed] at hor
      exact (Bool.or_eq_false_iff.mp hor).1

/-- The bytes handed out, those held, and what is left of the buffer. -/
def allBytes (os : List AuOut) (st : AuAsm) (rest : List UInt8) : List UInt8 :=
  os.flatMap AuOut.bytes ++ ((if st.hasVcl then st.au else st.pend) ++ rest)

theorem heldBytes_eq {st : AuAsm} {a : UnitAsm NalUnit} (hshows : Shows id st a) (ha : a.Sound) :
    (if st.hasVcl then st.au else st.pend) = unitBytes id a.all := by
  rw [hshows.hasVcl, hshows.au, hshows.pend, UnitAsm.all]
  cases hhas : a.hasVcl with
  | true => simp [ha.tidy hhas]
  | false => simp [ha.empty hhas]

/-- A unit fed with room for it, on units. -/
theorem roomFeed_shows {p p' : AuAsm × Bool} {f : Found} {out : Option AuOut} {a : UnitAsm NalUnit}
    (hfeed : roomFeed p f = (out, p')) (hroom : p'.2 = false) (hshows : Shows id p.1 a) :
    out = (unitFeed id a f.unit).1.map (fun o => ⟨unitBytes id o.1, o.2⟩) ∧
      Shows id p'.1 (unitFeed id a f.unit).2 := by
  cases hfeed
  have hfits : p.1.Room f.unit := by simpa using (Bool.or_eq_false_iff.mp hroom).2
  exact @auFeed_shows _ id _ _ f.unit hshows hfits

/-- **A drain loses nothing** but empty units, and what it hands out is as it
should be. -/
theorem Drains.lossless {p t : AuAsm × Bool} {buf rest : List UInt8} {os : List AuOut}
    (h : Drains roomFeed p buf os rest t) (ht : t.2 = false) {a : UnitAsm NalUnit}
    (hshows : Shows id p.1 a) (ha : a.Sound) (hat : (startAt buf).isSome) :
    (∀ o ∈ os, o.Good) ∧ allBytes os t.1 rest = unitBytes id a.all ++ stripEmpty buf := by
  induction h generalizing a with
  | done hnone =>
      refine ⟨by simp, ?_⟩
      rw [allBytes, heldBytes_eq hshows ha, stripEmpty_of_nextUnit_none hat hnone]
      rfl
  | go hf hfeed hdrain ih =>
      obtain ⟨-, hproper, hrest, hstrip⟩ := nextUnit_aligned hat hf
      obtain ⟨hout, hshows'⟩ := roomFeed_shows hfeed (hdrain.room ht) hshows
      obtain ⟨ha', ⟨-, hall⟩ | ⟨key, hsome, -⟩⟩ := sound_unitFeed ha hproper
      · obtain ⟨hgood, hbytes⟩ := ih ht hshows' ha' hrest
        exact ⟨hgood, by rw [hbytes, hall, hstrip, List.append_assoc]⟩
      · rw [hsome] at hout
        cases hout
  | stop hf hfeed hdrain ih =>
      obtain ⟨hstart, hproper, -, -⟩ := nextUnit_aligned hat hf
      obtain ⟨hout, hshows'⟩ := roomFeed_shows hfeed (hdrain.room ht) hshows
      obtain ⟨ha', ⟨hnone, -⟩ | ⟨key, hsome, hall, hgood⟩⟩ := sound_unitFeed ha hproper
      · rw [hnone] at hout
        cases hout
      · rw [hsome] at hout
        obtain rfl := Option.some.inj hout
        -- the unit that ended it stays in the buffer, and nothing is held
        obtain ⟨hgoods, hbytes⟩ := ih ht hshows' ha' (by rw [hstart]; exact hat)
        rw [hall, hstart, unitBytes_nil, List.nil_append] at hbytes
        refine ⟨List.forall_mem_cons.mpr ⟨hgood, hgoods⟩, ?_⟩
        rw [← hbytes, allBytes, allBytes, List.flatMap_cons, List.append_assoc]

/-- **Read boundaries do not matter, and nothing is lost.**  However a stream that
begins with a start code is cut into reads, the same access units are sent; with
room in the buffers each has exactly one VCL unit and the key flag that goes with
it, and they, what is under assembly and what is left of the input are the stream
without its empty units. -/
theorem splitting_ignores_reads (stream : List UInt8) (hstart : (startAt stream).isSome)
    (es : List PipeEvent) (s : PipeSource) (hgoes : ∀ e ∈ es, e.Goes)
    (hcut : es.flatMap PipeEvent.bytes = stream)
    (hrun : exec PipeSource.step PipeSource.init es = some s) :
    (∀ (es' : List PipeEvent) (s' : PipeSource), (∀ e ∈ es', e.Goes) →
      es'.flatMap PipeEvent.bytes = stream →
      exec PipeSource.step PipeSource.init es' = some s' →
      s'.sent.map SentAu.out = s.sent.map SentAu.out) ∧
    (s.asm.overrun = false →
      (∀ o ∈ s.sent.map SentAu.out, o.Good) ∧
      allBytes (s.sent.map SentAu.out) s.asm.st s.inbuf = stripEmpty stream) := by
  have hinit : PipeSource.init.OneDrain := .done rfl
  obtain ⟨hone, hstream⟩ := PipeSource.oneDrain_run hinit hgoes hrun
  have hstream' : s.stream = stream := hstream.trans hcut
  rw [PipeSource.OneDrain, hstream'] at hone
  refine ⟨?_, ?_⟩
  · intro es' s' hgoes' hcut' hrun'
    obtain ⟨hone', hstream''⟩ := PipeSource.oneDrain_run hinit hgoes' hrun'
    rw [PipeSource.OneDrain, hstream''.trans hcut'] at hone'
    exact (hone'.unique hone).1
  · intro hroom
    have hsound : UnitAsm.Sound ⟨[], [], false, false⟩ :=
      ⟨fun _ => rfl, fun _ => rfl, by simp, fun h => (by cases h), by simp [UnitAsm.all]⟩
    exact hone.lossless hroom ⟨rfl, rfl, rfl, rfl⟩ hsound hstart

/-- A key frame, an empty unit, a parameter set and two frames. -/
def fewUnits : List UInt8 :=
  [0, 0, 1, 0x65, 9, 0, 0, 1, 0, 0, 0, 1, 0x67, 3, 0, 0, 1, 0x41, 7, 0, 0, 0, 1, 0x41, 8]

/-- They are read with every start code cut in two. -/
def cutInCodes : List PipeEvent :=
  [.read [0, 0], .read [1, 0x65, 9, 0], .again, .read [0, 1, 0, 0], .read [0, 1, 0x67, 3, 0],
    .read [0, 1, 0x41, 7, 0, 0], .read [0, 1, 0x41, 8]]

theorem splitting_ignores_reads_cutInCodes :
    ∃ s, exec PipeSource.step PipeSource.init cutInCodes = some s ∧
      (∀ o ∈ s.sent.map SentAu.out, o.Good) ∧
      allBytes (s.sent.map SentAu.out) s.asm.st s.inbuf = stripEmpty fewUnits := by
  have hroom : (exec PipeSource.step PipeSource.init cutInCodes).map (·.asm.overrun) =
      some false := by
    decide +kernel
  obtain ⟨s, hs, hover⟩ := Option.map_eq_some_iff.mp hroom
  have hgoes : ∀ e ∈ cutInCodes, e.Goes := by simp [cutInCodes, PipeEvent.Goes]
  exact ⟨s, hs, (splitting_ignores_reads fewUnits (by decide) cutInCodes s hgoes (by decide) hs).2
    hover⟩

end Vmc
