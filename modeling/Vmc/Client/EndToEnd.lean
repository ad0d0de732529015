import Vmc.Client.UdpPath

/-!
# Vmc.Client.EndToEnd

The UDP video path from end to end: the datagrams of a list of access units,
delivered in any order the reorder window allows, with the client's drain loop
run at any moments in between.

A datagram the drain loop jumps over can never arrive again, since it would
have to lie ahead of `next_seq` (`missing_stays`).  So in a schedule in which
everything does arrive, nothing is jumped over, and the assembler is given the
stream in order: `udp_video_exact`.

That takes the stream to be shorter than one turn of the sequence numbers by a
window.  In a longer one a datagram that was jumped over comes round again, and
the promise fails (`videoExact_fails`).
-/

namespace Vmc

open Serial

variable {x : UdpStream} {T : UInt64 → Prop} {s : UdpPath} {m k : Nat}

/-! ## every schedule -/

/-- The datagram, if it is an arrival, comes at a time that satisfies `T`. -/
def PathOp.At (T : UInt64 → Prop) : PathOp → Prop
  | .arrive _ now1Us _ => T now1Us
  | .drain _ _ => True

/-- An arrival inside the window of the numbers is inside the window of
positions: the stream is too short for a position behind to look ahead. -/
theorem Window.of_legal (hlen : x.packets.length ≤ 2 ^ 32 - 255) (h : Window x T s m)
    {now1Us now2Us : UInt64} (hlegal : Legal x s (.arrive k now1Us now2Us)) :
    m ≤ k ∧ k < m + vmcJbMaxSlots := by
  obtain ⟨hk, hnew, hfirst, hahead⟩ := hlegal
  have hm := h.le
  rw [x.length_sent] at hk
  rw [h.base hfirst, vmcJbMaxSlots] at hahead
  rw [vmcJbMaxSlots]
  by_cases hlo : m ≤ k
  · rw [x.ahead_seqOf hlo (by omega)] at hahead
    omega
  · have hgot : s.got ≠ [] := by
      intro hnil
      have := h.fresh hnil
      omega
    have hzero : k ≠ 0 := by
      rintro rfl
      exact hnew (h.first hgot)
    rw [x.ahead_seqOf_behind (by omega) (by omega)] at hahead
    omega

/-- What holds all along: the buffer has a place in the stream, and is in sync
unless it has jumped over something. -/
def PathInv (x : UdpStream) (T : UInt64 → Prop) (s : UdpPath) : Prop :=
  ∃ m, Window x T s m ∧ ((∀ k < m, k ∈ s.got) → Synced x s m)

theorem pathInv_start (x : UdpStream) (T : UInt64 → Prop) : PathInv x T x.start := by
  refine ⟨0, Window.start x T, fun _ => ⟨by simp [UdpStream.start], x.frames, ?_, rfl⟩⟩
  have hidle : x.start.frag.Idle := ⟨x.buf.size, rfl, rfl⟩
  have hframes : x.frames = x.aus.map (·.out) := by
    refine List.map_congr_left fun au hau => ?_
    rw [AccessUnit.out, if_neg (not_le.mpr (x.long au hau))]
  rw [hframes, List.drop_zero]
  exact expects_of_idle hidle _ x.fits

/-- One legal step, whatever it is. -/
theorem pathStep_spec (hlen : x.packets.length ≤ 2 ^ 32 - 255) (h : Window x T s m) {e : PathOp}
    (hlegal : Legal x s e) (hat : e.At T) :
    ∃ s', pathStep x s e = some s' ∧
      (∀ k, k ∈ s'.got ↔ k ∈ s.got ∨ ∃ now1Us now2Us, e = .arrive k now1Us now2Us) ∧
      ∃ m', m ≤ m' ∧ Window x T s' m' ∧
        ((∀ k < m', k ∈ s'.got) → ((∀ k < m, k ∈ s.got) → Synced x s m) → Synced x s' m') := by
  cases e with
  | arrive k now1Us now2Us =>
      obtain ⟨hlo, hhi⟩ := h.of_legal hlen hlegal
      obtain ⟨hk, hnew, hfirst, -⟩ := hlegal
      rw [x.length_sent] at hk
      obtain ⟨p, s', hp, hstep, hwin, hgot, hfrag, houts, hperm⟩ :=
        arrive_spec (by omega) h hk hnew hfirst hlo hhi now1Us now2Us hat
      refine ⟨s', hstep, ?_, m, le_refl m, hwin, fun hall hs => ?_⟩
      · intro j
        rw [hgot, List.mem_cons]
        constructor
        · rintro (rfl | hj)
          · exact .inr ⟨now1Us, now2Us, rfl⟩
          · exact .inl hj
        · rintro (hj | ⟨_, _, heq⟩)
          · exact .inr hj
          · cases heq
            exact .inl rfl
      · have hsync := hs fun j hj => by
          obtain rfl | hmem := List.mem_cons.mp (hgot ▸ hall j hj)
          · omega
          · exact hmem
        constructor
        · intro j hj hmj
          rw [hgot] at hj
          obtain rfl | hj := List.mem_cons.mp hj
          · exact ⟨p.slot now1Us, hperm.mem_iff.mpr List.mem_cons_self, seq_packetsFrom _ _ hp⟩
          · obtain ⟨slot, hslot, hseq⟩ := hsync.held j hj hmj
            exact ⟨slot, hperm.mem_iff.mpr (List.mem_cons_of_mem _ hslot), hseq⟩
        · rw [hfrag, houts]
          exact hsync.waits
  | drain clock bufs =>
      obtain ⟨s', hs'⟩ := drain_isSome x s clock bufs
      obtain ⟨hgot, m', hle, hwin, hsync⟩ := drain_window (by omega) _ h hs'
      refine ⟨s', hs', by simp [hgot], m', hle, hwin, fun hall hs => hsync (hgot ▸ hall) ?_⟩
      exact hs fun k hk => hgot ▸ hall k (by omega)

theorem pathInv_step (hlen : x.packets.length ≤ 2 ^ 32 - 255) (h : PathInv x T s) {e : PathOp}
    (hlegal : Legal x s e) (hat : e.At T) : ∃ s', pathStep x s e = some s' ∧ PathInv x T s' := by
  obtain ⟨m, hwin, hsync⟩ := h
  obtain ⟨s', hstep, -, m', -, hwin', hsync'⟩ := pathStep_spec hlen hwin hlegal hat
  exact ⟨s', hstep, m', hwin', fun hall => hsync' hall hsync⟩

/-- **What has been jumped over stays missing**: it can no longer arrive inside
the window. -/
theorem missing_stays (hlen : x.packets.length ≤ 2 ^ 32 - 255) {es : List PathOp} :
    ∀ {s : UdpPath} {m : Nat}, Window x (fun _ => True) s m →
      Run.Along (pathStep x) (Legal x) s es → k < m → k ∉ s.got →
      ∀ now1Us now2Us, PathOp.arrive k now1Us now2Us ∉ es := by
  induction es with
  | nil =>
      intro s m _ _ _ _ now1Us now2Us
      exact List.not_mem_nil
  | cons e es ih =>
      intro s m h hlegal hkm hnew now1Us now2Us hmem
      have hhead : ∀ n1 n2, PathOp.arrive k n1 n2 ≠ e := by
        rintro n1 n2 rfl
        have := (h.of_legal hlen hlegal.1).1
        omega
      obtain heq | hmem := List.mem_cons.mp hmem
      · exact hhead _ _ heq
      · obtain ⟨s', hstep, hgot, m', hle, hwin, -⟩ := pathStep_spec hlen h hlegal.1
          (by cases e <;> trivial)
        refine ih hwin (hlegal.2 s' hstep) (by omega) ?_ now1Us now2Us hmem
        rw [hgot k]
        rintro (hk | ⟨n1, n2, heq⟩)
        · exact hnew hk
        · exact hhead n1 n2 heq.symm

/-- Along a legal run the datagrams that have arrived are those of its
arrivals. -/
theorem got_exec (hlen : x.packets.length ≤ 2 ^ 32 - 255) {es : List PathOp} :
    ∀ {s s' : UdpPath}, PathInv x (fun _ => True) s → Run.Along (pathStep x) (Legal x) s es →
      Run.exec (pathStep x) s es = some s' →
      ∀ k, k ∈ s'.got ↔ k ∈ s.got ∨ ∃ now1Us now2Us, PathOp.arrive k now1Us now2Us ∈ es := by
  induction es with
  | nil =>
      intro s s' _ _ hrun k
      obtain rfl := Option.some.inj hrun
      simp
  | cons e es ih =>
      intro s s' h hlegal hrun k
      obtain ⟨t, ht, hrest⟩ := (Run.exec_cons_eq_some _).mp hrun
      obtain ⟨m, hwin, hsync⟩ := h
      obtain ⟨t', hstep, hgot, m', -, hwin', hsync'⟩ := pathStep_spec hlen hwin hlegal.1
        (by cases e <;> trivial)
      obtain rfl : t' = t := Option.some.inj (hstep.symm.trans ht)
      rw [ih ⟨m', hwin', fun hall => hsync' hall hsync⟩ (hlegal.2 t' ht) hrest k, hgot k]
      simp only [List.mem_cons]
      grind

/-- In a schedule in which everything arrives, the path is in sync wherever the
schedule is interrupted. -/
theorem synced_of_all_arrive (hlen : x.packets.length ≤ 2 ^ 32 - 255) (pre post : List PathOp)
    (hat : ∀ e ∈ pre, e.At T) (hlegal : Run.Along (pathStep x) (Legal x) x.start (pre ++ post))
    (hall : AllArrive x (pre ++ post)) :
    ∃ s m, Run.exec (pathStep x) x.start pre = some s ∧ Window x T s m ∧ Synced x s m := by
  obtain ⟨hpre, hpost⟩ := Run.along_append.mp hlegal
  obtain ⟨s, hs, m, hwin, hsync⟩ := Run.exec_progress (PathInv x T)
    (fun s e h hok => pathInv_step hlen h hok.1 hok.2) (pathInv_start x T) (hpre.and_mem hat)
  refine ⟨s, m, hs, hwin, hsync fun k hk => ?_⟩
  by_contra hmissing
  have hm := hwin.le
  obtain ⟨n1, n2, hmem⟩ := hall k (by rw [x.length_sent]; omega)
  obtain hmem | hmem := List.mem_append.mp hmem
  · exact hmissing ((got_exec hlen (pathInv_start x _) hpre hs k).mpr (.inr ⟨n1, n2, hmem⟩))
  · exact missing_stays hlen (hwin.weaken fun _ _ => trivial) (hpost s hs) hk hmissing n1 n2 hmem

/-! ## prompt delivery -/

theorem Window.legal (h : Window x T s m) (hk : k < x.packets.length) (hnew : k ∉ s.got)
    (hfirst : s.got = [] → k = 0) (hlo : m ≤ k) (hhi : k < m + vmcJbMaxSlots)
    (now1Us now2Us : UInt64) : Legal x s (.arrive k now1Us now2Us) := by
  refine ⟨by rwa [x.length_sent], hnew, hfirst, ?_⟩
  rw [vmcJbMaxSlots] at hhi ⊢
  rw [h.base hfirst, x.ahead_seqOf hlo (by omega)]
  omega

/-- An arrival inside the window may go on in any way that is legal from where
it leads. -/
theorem Window.along_arrive (hlen : x.packets.length < 2 ^ 64) (h : Window x T s m)
    (hk : k < x.packets.length) (hnew : k ∉ s.got) (hfirst : s.got = [] → k = 0) (hlo : m ≤ k)
    (hhi : k < m + vmcJbMaxSlots) {now1Us now2Us : UInt64} (hT : T now1Us) {es : List PathOp}
    (hrest : ∀ s', Window x T s' m → s'.got = k :: s.got →
      Run.Along (pathStep x) (Legal x) s' es) :
    Run.Along (pathStep x) (Legal x) s (.arrive k now1Us now2Us :: es) := by
  obtain ⟨p, s', -, hstep, hwin, hgot, -⟩ := arrive_spec hlen h hk hnew hfirst hlo hhi now1Us now2Us hT
  refine ⟨h.legal hk hnew hfirst hlo hhi now1Us now2Us, fun t ht => ?_⟩
  obtain rfl := Option.some.inj (hstep.symm.trans ht)
  exact hrest s' hwin hgot

/-- Draining at every moment of a clock that stands still. -/
def drainNow : PathOp := .drain (fun _ => 0) (fun _ => FrameBuf.zero)

/-- Datagram `k` arrives and the client drains. -/
def burst (k : Nat) : List PathOp := [.arrive k 0 0, drainNow]

/-- **Prompt delivery.**  Without a delay, a datagram that arrives at an empty
buffer is played at once, and the buffer is empty again behind it. -/
theorem burst_spec (hlen : x.packets.length < 2 ^ 64) (hdelay : x.targetDelayUs = 0)
    (h : Window x (fun _ => True) s m) (hempty : s.jb.contents = []) (hk : k < x.packets.length)
    (hnew : k ∉ s.got) (hfirst : s.got = [] → k = 0) (hlo : m ≤ k) (hhi : k < m + vmcJbMaxSlots) :
    ∃ p s', x.packets[k]? = some p ∧ Run.exec (pathStep x) s (burst k) = some s' ∧
      Run.Along (pathStep x) (Legal x) s (burst k) ∧ Window x (fun _ => True) s' (k + 1) ∧
      s'.jb.contents = [] ∧ s'.got = k :: s.got ∧
      ∃ jb, s' = { s with got := k :: s.got }.play jb (p.slot 0) FrameBuf.zero := by
  obtain ⟨p, s1, hp, hstep, hwin, hgot, hfrag, houts, hperm⟩ :=
    arrive_spec hlen h hk hnew hfirst hlo hhi 0 0 trivial
  rw [hempty] at hperm
  have hone : s1.jb.contents = [p.slot 0] := List.perm_singleton.mp hperm
  have hpeek := peek_alone 0 hone (hwin.target.trans hdelay)
  obtain ⟨j, q, hjlo, hjhi, -, -, hjseq, -, hplay⟩ := play_window hwin hpeek FrameBuf.zero
  have hseq : (p.slot 0).seq = x.seqOf k := seq_packetsFrom _ _ hp
  obtain rfl : j = k := by
    rw [vmcJbMaxSlots] at hhi hjhi
    exact x.seqOf_inj hjlo (by omega) hlo (by omega) (hjseq.symm.trans hseq)
  have hgone : (s1.play (vmcJbPeek s1.jb 0).2 (p.slot 0) FrameBuf.zero).jb.contents = [] := by
    obtain ⟨gone, -, hperm', -⟩ := consume_peek hpeek
    have hlen' := hperm'.length_eq
    rw [hone, List.length_cons, List.length_cons, List.length_nil] at hlen'
    exact List.length_eq_zero_iff.mp (Nat.succ_inj.mp hlen'.symm)
  have hdrain : pathStep x s1 drainNow =
      some (s1.play (vmcJbPeek s1.jb 0).2 (p.slot 0) FrameBuf.zero) := by
    have hrest := drainLoop_none (fun _ => 0) (fun _ => FrameBuf.zero) (i := 1) 255
      (by rw [peek_empty _ hgone])
    rw [peek_empty _ hgone] at hrest
    rw [drainNow, pathStep, drainLoop_some (fun _ => 0) _ _ hpeek]
    exact hrest
  refine ⟨p, _, hp, ?_, ?_, hplay, hgone, hgot, (vmcJbPeek s1.jb 0).2, ?_⟩
  · rw [burst, Run.exec_cons_eq_some]
    exact ⟨s1, hstep, (Run.exec_cons_eq_some _).mpr ⟨_, hdrain, rfl⟩⟩
  · exact ⟨h.legal hk hnew hfirst hlo hhi 0 0, fun _ _ => ⟨trivial, fun _ _ => trivial⟩⟩
  · simp only [UdpPath.play, hgot, hfrag, houts]

/-- Delivered in order from position `m` on, each datagram drained at once, the
stream is played to wherever it is followed. -/
theorem bursts_spec (hlen : x.packets.length < 2 ^ 64) (hdelay : x.targetDelayUs = 0) (c : Nat) :
    ∀ {s : UdpPath} {m : Nat}, Window x (fun _ => True) s m → s.jb.contents = [] → s.got ≠ [] →
      (∀ k ∈ s.got, k < m) → m + c ≤ x.packets.length →
      ∃ s', Run.exec (pathStep x) s ((List.range' m c).flatMap burst) = some s' ∧
        Run.Along (pathStep x) (Legal x) s ((List.range' m c).flatMap burst) ∧
        Window x (fun _ => True) s' (m + c) ∧ s'.got ≠ [] ∧
        ∀ k ∈ s'.got, k ∈ s.got ∨ m ≤ k := by
  induction c with
  | zero =>
      intro s m h _ hgot _ _
      exact ⟨s, rfl, trivial, h, hgot, fun k hk => .inl hk⟩
  | succ c ih =>
      intro s m h hempty hgot hbefore hle
      obtain ⟨p, t, -, hrun, hal, hwin, hempty', hgot', -⟩ := burst_spec hlen hdelay h hempty
        (by omega) (fun hmem => absurd (hbefore m hmem) (lt_irrefl m)) (fun hnil => absurd hnil hgot)
        (le_refl m) (by rw [vmcJbMaxSlots]; omega)
      have hnext : ∀ k ∈ t.got, k < m + 1 := by
        intro k hk
        rw [hgot'] at hk
        obtain rfl | hk := List.mem_cons.mp hk
        · omega
        · have := hbefore k hk
          omega
      obtain ⟨s', hrun', hal', hwin', hne, hmem⟩ := ih hwin hempty'
        (hgot'.symm ▸ List.cons_ne_nil m s.got) hnext (by omega)
      rw [List.range'_succ, List.flatMap_cons]
      refine ⟨s', ?_, ?_, by rwa [show m + (c + 1) = m + 1 + c by omega], hne, ?_⟩
      · exact Run.exec_append_of _ hrun hrun'
      · exact Run.along_append_of hal hrun hal'
      · intro k hk
        obtain hk | hk := hmem k hk
        · rw [hgot'] at hk
          obtain rfl | hk := List.mem_cons.mp hk
          · exact .inr (le_refl k)
          · exact .inl hk
        · exact .inr (by omega)

/-! ## longer streams -/

/-- The readings of the clock a step makes, in order. -/
def PathOp.readings : PathOp → List UInt64
  | .arrive _ now1Us now2Us => [now1Us, now2Us]
  | .drain clock _ => (List.range (vmcJbMaxSlots + 1)).map clock

/-- The clock never runs back. -/
def OnClock (es : List PathOp) : Prop := (es.flatMap PathOp.readings).Pairwise (· ≤ ·)

/-- The promise for streams of any length. -/
def VideoExact : Prop :=
  ∀ (x : UdpStream) (es : List PathOp), Run.Along (pathStep x) (Legal x) x.start es →
    AllArrive x es → OnClock es →
    (∀ pre post s, es = pre ++ post → Run.exec (pathStep x) x.start pre = some s →
      s.outs <+: x.frames) ∧
    ∀ clock bufs s, OnClock (es ++ [.drain clock bufs]) → Aged x es clock →
      Run.exec (pathStep x) x.start (es ++ [.drain clock bufs]) = some s → s.outs = x.frames

/-- A unit of 1401 equal bytes, which is two datagrams. -/
def flatUnit (b : UInt8) : AccessUnit := ⟨List.replicate 1401 b, false, 0⟩

theorem length_flatUnit (b : UInt8) : (flatUnit b).data.length = 1401 := List.length_replicate

theorem count_flatUnit (b : UInt8) : (flatUnit b).count = 2 := by
  rw [AccessUnit.count, length_flatUnit, simChunk, vmcVideoFragChunk]
  decide

theorem packets_flatUnit (b : UInt8) (seq : UInt32) :
    (flatUnit b).packets seq = [(flatUnit b).fragPacket seq 0, (flatUnit b).fragPacket seq 1] := by
  rw [AccessUnit.packets, count_flatUnit, length_flatUnit, if_neg (by decide)]
  rfl

/-- A simulator that knows its client and drops nothing, and its packet buffer. -/
def longSim : SimCtx := ⟨true, 0, 0⟩

theorem haveClient_longSim : longSim.haveClient = true := rfl

theorem dropRate_longSim : longSim.dropRate = 0 := rfl

def longPkt : List UInt8 := List.replicate simPktSize 0

theorem length_longPkt : longPkt.length = simPktSize := List.length_replicate

/-- A stream of `n + 2` such units, all but the first alike. -/
def longStream (n : Nat) : UdpStream where
  draws := fun _ _ => 0
  pkt := fun _ => longPkt
  ctx := longSim
  aus := flatUnit 1 :: List.replicate (n + 1) (flatUnit 0)
  targetDelayUs := 0
  out := ⟨videoHeader 0 0 0 0, []⟩
  buf := FrameBuf.zero
  client := haveClient_longSim
  lossless := dropRate_longSim
  pktSize := fun _ => length_longPkt
  long := by
    intro au hau
    obtain rfl | hau := List.mem_cons.mp hau
    · rw [length_flatUnit]
      decide
    · rw [List.eq_of_mem_replicate hau, length_flatUnit]
      decide
  fits := by
    intro au hau
    obtain rfl | hau := List.mem_cons.mp hau
    · rw [length_flatUnit]
      decide
    · rw [List.eq_of_mem_replicate hau, length_flatUnit]
      decide

theorem length_longStream (n : Nat) : (longStream n).packets.length = 2 * (n + 2) := by
  rw [UdpStream.packets, length_packetsFrom, longStream, List.map_cons, List.map_replicate,
    List.sum_cons, List.sum_replicate, count_flatUnit, count_flatUnit, smul_eq_mul]
  omega

/-- The first four datagrams: two of the first unit, two of the second. -/
theorem packets_longStream (n : Nat) : ∃ rest, (longStream n).packets =
    (flatUnit 1).fragPacket 0 0 :: (flatUnit 1).fragPacket 0 1 ::
      (flatUnit 0).fragPacket 2 0 :: (flatUnit 0).fragPacket 2 1 :: rest := by
  show ∃ rest, packetsFrom 0 (flatUnit 1 :: flatUnit 0 :: List.replicate n (flatUnit 0)) = _
  rw [packetsFrom, packetsFrom, packets_flatUnit, packets_flatUnit, count_flatUnit]
  exact ⟨_, rfl⟩

/-- With the second datagram of the first unit missing, the next two complete
the second unit. -/
theorem processSlot_flatUnits {a : FragAssembler}
    (ha : a = vmcFragReset ⟨FrameBuf.zero.bytes, vmcVideoAuMax, 0, 0, 0, false⟩) :
    ∃ a1 a2 a3, processSlot a (((flatUnit 1).fragPacket 0 0).slot 0) = (a1, none) ∧
      processSlot a1 (((flatUnit 0).fragPacket 2 0).slot 0) = (a2, none) ∧
      processSlot a2 (((flatUnit 0).fragPacket 2 1).slot 0) =
        (a3, some (.frame (flatUnit 0).data 0)) := by
  have houts :
      let a := vmcFragReset ⟨FrameBuf.zero.bytes, vmcVideoAuMax, 0, 0, 0, false⟩
      let r1 := processSlot a (((flatUnit 1).fragPacket 0 0).slot 0)
      let r2 := processSlot r1.1 (((flatUnit 0).fragPacket 2 0).slot 0)
      let r3 := processSlot r2.1 (((flatUnit 0).fragPacket 2 1).slot 0)
      r1.2 = none ∧ r2.2 = none ∧ r3.2 = some (.frame (flatUnit 0).data 0) := by
    decide +kernel
  have hpair : ∀ (r : FragAssembler × Option VideoOut) {o}, r.2 = o → r = (r.1, o) := by
    rintro ⟨_, _⟩ _ rfl
    rfl
  rw [← ha] at houts
  exact ⟨_, _, _, hpair _ houts.1, hpair _ houts.2.1, hpair _ houts.2.2⟩

theorem play_none {s : UdpPath} {slot : JbSlot} {a : FragAssembler} (jb : JitterBuffer)
    (buf : FrameBuf) (h : processSlot s.frag slot = (a, none)) :
    (s.play jb slot buf).frag = a ∧ (s.play jb slot buf).outs = s.outs := by
  simp only [UdpPath.play, h, Option.toList_none, List.append_nil, and_self]

theorem outs_play {s : UdpPath} {slot : JbSlot} {a : FragAssembler} {o : VideoOut}
    (jb : JitterBuffer) (buf : FrameBuf) (h : processSlot s.frag slot = (a, some o)) :
    (s.play jb slot buf).outs = s.outs ++ [o] := by
  simp only [UdpPath.play, h, Option.toList_some]

/-- The first moments: datagram 1 does not come, 2 and 3 do. -/
def jumpOver : List PathOp := burst 0 ++ (burst 2 ++ burst 3)

theorem jumpOver_spec (n : Nat) (hlen : (longStream n).packets.length < 2 ^ 64) :
    ∃ s, Run.exec (pathStep (longStream n)) (longStream n).start jumpOver = some s ∧
      Run.Along (pathStep (longStream n)) (Legal (longStream n)) (longStream n).start jumpOver ∧
      Window (longStream n) (fun _ => True) s 4 ∧ s.jb.contents = [] ∧ s.got = [3, 2, 0] ∧
      s.outs = [.frame (flatUnit 0).data 0] := by
  have hcount := length_longStream n
  obtain ⟨rest, hpackets⟩ := packets_longStream n
  obtain ⟨a1, a2, a3, hout1, hout2, hout3⟩ :=
    processSlot_flatUnits (a := (longStream n).start.frag) rfl
  obtain ⟨p0, s1, hp0, hrun1, hal1, hwin1, hempty1, hgot1, jb1, hplay1⟩ :=
    burst_spec (k := 0) hlen rfl (Window.start (longStream n) _) (contents_init 0) (by omega)
      (by simp [UdpStream.start]) (fun _ => rfl) (le_refl 0) (by decide)
  obtain ⟨p2, s2, hp2, hrun2, hal2, hwin2, hempty2, hgot2, jb2, hplay2⟩ :=
    burst_spec (k := 2) hlen rfl hwin1 hempty1 (by omega) (by simp [hgot1, UdpStream.start])
      (by simp [hgot1]) (by decide) (by decide)
  obtain ⟨p3, s3, hp3, hrun3, hal3, hwin3, hempty3, hgot3, jb3, hplay3⟩ :=
    burst_spec (k := 3) hlen rfl hwin2 hempty2 (by omega)
      (by simp [hgot2, hgot1, UdpStream.start]) (by simp [hgot2]) (by decide) (by decide)
  rw [hpackets] at hp0 hp2 hp3
  obtain rfl := Option.some.inj hp0
  obtain rfl := Option.some.inj hp2
  obtain rfl := Option.some.inj hp3
  obtain ⟨hfrag1, houts1⟩ := hplay1 ▸ play_none
    (s := { (longStream n).start with got := 0 :: (longStream n).start.got }) jb1 FrameBuf.zero hout1
  obtain ⟨hfrag2, houts2⟩ := hplay2 ▸ play_none
    (s := { s1 with got := 2 :: s1.got }) jb2 FrameBuf.zero (hfrag1 ▸ hout2)
  have houts3 := hplay3 ▸ outs_play
    (s := { s2 with got := 3 :: s2.got }) jb3 FrameBuf.zero (hfrag2 ▸ hout3)
  refine ⟨s3, ?_, ?_, hwin3, hempty3, ?_, ?_⟩
  · exact Run.exec_append_of _ hrun1 (Run.exec_append_of _ hrun2 hrun3)
  · exact Run.along_append_of hal1 hrun1 (Run.along_append_of hal2 hrun2 hal3)
  · rw [hgot3, hgot2, hgot1]
    rfl
  · rw [houts3, houts2, houts1]
    rfl

/-- The whole schedule: the rest in order, and datagram 1 at the end. -/
def comeRound (c : Nat) : List PathOp :=
  jumpOver ++ ((List.range' 4 c).flatMap burst ++ [.arrive 1 0 0])

theorem mem_burst (k : Nat) : PathOp.arrive k 0 0 ∈ burst k := by simp [burst]

theorem allArrive_comeRound {c : Nat} (h : x.packets.length = 4 + c) :
    AllArrive x (comeRound c) := by
  intro k hk
  refine ⟨0, 0, ?_⟩
  rw [x.length_sent] at hk
  obtain rfl | rfl | rfl | rfl | hk4 : k = 0 ∨ k = 1 ∨ k = 2 ∨ k = 3 ∨ 4 ≤ k := by omega
  · simp [comeRound, jumpOver, mem_burst]
  · simp [comeRound]
  · simp [comeRound, jumpOver, mem_burst]
  · simp [comeRound, jumpOver, mem_burst]
  · have hmem : PathOp.arrive k 0 0 ∈ (List.range' 4 c).flatMap burst :=
      List.mem_flatMap.mpr ⟨k, List.mem_range'_1.mpr ⟨hk4, by omega⟩, mem_burst k⟩
    simp [comeRound, hmem]

/-- The clock stands still all the time. -/
theorem onClock_comeRound (c : Nat) : OnClock (comeRound c) := by
  have hburst : ∀ k, ∀ e ∈ burst k, ∀ r ∈ e.readings, r = 0 := by
    simp [burst, drainNow, PathOp.readings]
  have hzero : ∀ e ∈ comeRound c, ∀ r ∈ e.readings, r = 0 := by
    intro e he
    simp only [comeRound, jumpOver, List.mem_append, List.mem_flatMap, List.mem_singleton] at he
    obtain (he | he | he) | ⟨k, -, he⟩ | rfl := he
    · exact hburst 0 e he
    · exact hburst 2 e he
    · exact hburst 3 e he
    · exact hburst k e he
    · simp [PathOp.readings]
  refine List.pairwise_of_forall_mem_list fun a ha b hb => ?_
  obtain ⟨e, he, hae⟩ := List.mem_flatMap.mp ha
  obtain ⟨f, hf, hbf⟩ := List.mem_flatMap.mp hb
  rw [hzero e he a hae, hzero f hf b hbf]
  exact UInt64.le_refl 0

/-- In a stream of `2 ^ 32 - 254` datagrams, datagram 1 is jumped over and comes
last, when it looks 255 ahead: the second unit was completed without the
first. -/
theorem videoExact_fails : ¬ VideoExact := by
  intro h
  obtain ⟨n, hn⟩ : ∃ n, 2 * (n + 2) = 2 ^ 32 - 254 := ⟨2147483519, by norm_num⟩
  have hcount := length_longStream n
  obtain ⟨s, hrun, hal, hwin, hempty, hgot, houts⟩ := jumpOver_spec n (by omega)
  obtain ⟨t, hrun', hal', hwin', hne, hmem⟩ := bursts_spec (x := longStream n) (by omega) rfl
    (2 * (n + 2) - 4) hwin hempty (by simp [hgot]) (by simp [hgot]) (by omega)
  rw [show 4 + (2 * (n + 2) - 4) = 2 * (n + 2) by omega] at hwin'
  have hnew : 1 ∉ t.got := by
    intro h1
    obtain h1 | h1 := hmem 1 h1
    · simp [hgot] at h1
    · omega
  have hlast : Legal (longStream n) t (.arrive 1 0 0) := by
    refine ⟨by rw [UdpStream.length_sent]; omega, hnew, fun hnil => absurd hnil hne, ?_⟩
    rw [hwin'.base fun hnil => absurd hnil hne, vmcJbMaxSlots,
      (longStream n).ahead_seqOf_behind (by omega) (by omega)]
    omega
  have hone : Run.Along (pathStep (longStream n)) (Legal (longStream n)) t [.arrive 1 0 0] :=
    ⟨hlast, fun _ _ => trivial⟩
  have hlegal := Run.along_append_of hal hrun (Run.along_append_of hal' hrun' hone)
  have hpre := (h (longStream n) (comeRound (2 * (n + 2) - 4)) hlegal
    (allArrive_comeRound (by omega)) (onClock_comeRound _)).1 jumpOver _ s rfl hrun
  rw [houts] at hpre
  have hhead := (List.cons_prefix_cons.mp hpre).1
  have hdata : (flatUnit 0).data = (flatUnit 1).data := (VideoOut.frame.inj hhead).1
  exact absurd hdata (by decide +kernel)

/-! ## the promise kept -/

/-- **The UDP video path is exact.**  For every list of long access units and
every schedule of arrivals and drains in which each datagram arrives once,
inside the window, the first one first: wherever the schedule is interrupted,
the units completed are a front part of the list; and once everything has
arrived and aged, one drain completes the list. -/
theorem udp_video_exact (x : UdpStream) (hlen : x.sent.length ≤ 2 ^ 32 - 255) (es : List PathOp)
    (hlegal : Run.Along (pathStep x) (Legal x) x.start es) (hall : AllArrive x es) :
    (∀ pre post, es = pre ++ post →
      ∃ s, Run.exec (pathStep x) x.start pre = some s ∧ s.outs <+: x.frames) ∧
    ∀ clock bufs, Aged x es clock →
      ∃ s, Run.exec (pathStep x) x.start (es ++ [.drain clock bufs]) = some s ∧
        s.outs = x.frames := by
  rw [x.length_sent] at hlen
  constructor
  · rintro pre post rfl
    obtain ⟨s, m, hs, -, hsync⟩ := synced_of_all_arrive (T := fun _ => True) hlen pre post
      (fun e _ => by cases e <;> trivial) hlegal hall
    obtain ⟨todo, -, houts⟩ := hsync.waits
    exact ⟨s, hs, todo, houts⟩
  · intro clock bufs haged
    obtain ⟨s, m, hs, hwin, hsync⟩ := synced_of_all_arrive
      (T := fun t => ∀ i, t.toNat + x.targetDelayUs.toNat ≤ (clock i).toNat) hlen es []
      (fun e he => by
        cases e with
        | arrive k n1 n2 => exact haged k n1 n2 he
        | drain _ _ => trivial)
      (by rwa [List.append_nil]) (by rwa [List.append_nil])
    obtain ⟨s', hs'⟩ := drain_isSome x s clock bufs
    refine ⟨s', ?_, ?_⟩
    · exact Run.exec_append_of _ hs ((Run.exec_cons_eq_some _).mpr ⟨s', hs', rfl⟩)
    · refine drain_complete (by omega) (fun t i ht => ht i) _ hwin hsync (fun k hk => ?_) hs'
      rw [got_exec hlen (pathInv_start x _) hlegal hs k]
      exact .inr (hall k (by rw [x.length_sent]; omega))

/-- Two units; the datagrams of the second overtake the end of the first. -/
def overtaken : List PathOp := burst 0 ++ [.arrive 2 0 0, .arrive 1 0 0, .arrive 3 0 0]

theorem legal_overtaken :
    Run.Along (pathStep (longStream 0)) (Legal (longStream 0)) (longStream 0).start overtaken := by
  have hcount := length_longStream 0
  obtain ⟨p, s, -, hrun, hal, hwin, -, hgot, -⟩ := burst_spec (k := 0) (by omega) rfl
    (Window.start (longStream 0) _) (contents_init 0) (by omega) (by simp [UdpStream.start])
    (fun _ => rfl) (le_refl 0) (by decide)
  refine Run.along_append_of hal hrun ?_
  -- position 0 has been played, so the window starts at 1
  refine hwin.along_arrive (by omega) (by omega) (by simp [hgot, UdpStream.start])
    (by simp [hgot]) (by omega) (by decide) trivial fun s2 hwin2 hgot2 => ?_
  refine hwin2.along_arrive (by omega) (by omega) (by simp [hgot2, hgot, UdpStream.start])
    (by simp [hgot2]) (by omega) (by decide) trivial fun s1 hwin1 hgot1 => ?_
  refine hwin1.along_arrive (by omega) (by omega)
    (by simp [hgot1, hgot2, hgot, UdpStream.start]) (by simp [hgot1]) (by omega) (by decide) trivial
    fun s3 _ _ => trivial

theorem udp_video_exact_overtaken :
    ∃ s, Run.exec (pathStep (longStream 0)) (longStream 0).start (overtaken ++ [drainNow]) = some s ∧
      s.outs = [.frame (flatUnit 1).data 0, .frame (flatUnit 0).data 0] := by
  have hcount := length_longStream 0
  have hall : AllArrive (longStream 0) overtaken := by
    intro k hk
    rw [UdpStream.length_sent, hcount] at hk
    refine ⟨0, 0, ?_⟩
    obtain rfl | rfl | rfl | rfl : k = 0 ∨ k = 1 ∨ k = 2 ∨ k = 3 := by omega
    · simp [overtaken, mem_burst]
    · simp [overtaken]
    · simp [overtaken]
    · simp [overtaken]
  have haged : Aged (longStream 0) overtaken fun _ => 0 := by
    intro k now1Us now2Us hmem i
    have hzero : now1Us = 0 := by
      simp [overtaken, burst, drainNow] at hmem
      grind
    rw [hzero]
    rfl
  exact (udp_video_exact (longStream 0) (by rw [UdpStream.length_sent, hcount]; norm_num) overtaken
    legal_overtaken hall).2 (fun _ => 0) (fun _ => FrameBuf.zero) haged

end Vmc
