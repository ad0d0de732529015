import Vmc.Client.VideoPath
import Vmc.Lib.Run

/-!
# Vmc.Client.UdpPath

The client of the UDP video path: datagrams of a stream arrive in some order
and are buffered, and the main loop's drain loop plays what the jitter buffer
hands out.

Positions in the stream are counted from zero, as the sender emits the
datagrams.  `Window` says where the buffer stands in that count, and `Synced`
that everything before was played in order.  An arrival inside the window joins
the buffer (`arrive_spec`); a drain moves the buffer forward, and if nothing it
moved past is missing, all of it was played in order (`drain_window`).
-/

namespace Vmc

open Serial

/-! ## the path -/

/-- A sender with a list of long access units, and the client they are sent
to. -/
structure UdpStream where
  draws : Nat → Nat → ℚ
  pkt : Nat → List UInt8
  ctx : SimCtx
  aus : List AccessUnit
  targetDelayUs : UInt64
  out : DecodeOut
  buf : FrameBuf
  client : ctx.haveClient = true
  lossless : ctx.dropRate = 0
  pktSize : ∀ n, (pkt n).length = simPktSize
  long : ∀ au ∈ aus, simChunk < au.data.length
  fits : ∀ au ∈ aus, au.data.length ≤ vmcVideoAuMax

namespace UdpStream

/-- The datagrams `send_au` emits, in order. -/
def sent (x : UdpStream) : List (List UInt8) := (sendAll x.draws x.pkt x.ctx x.aus).1

/-- The number the `k`-th datagram goes out under. -/
def seqOf (x : UdpStream) (k : Nat) : UInt32 := x.ctx.videoSeq + UInt32.ofNat k

/-- What is to be completed: every unit, byte for byte, with its timestamp. -/
def frames (x : UdpStream) : List VideoOut := x.aus.map fun au => .frame au.data au.tsUs

end UdpStream

/-- The client: the jitter buffer, the assembler, the datagrams that have
arrived so far and the units completed. -/
structure UdpPath where
  jb : JitterBuffer
  frag : FragAssembler
  got : List Nat
  outs : List VideoOut

/-- The state the main loop starts in. -/
def UdpStream.start (x : UdpStream) : UdpPath where
  jb := vmcJbInit x.targetDelayUs
  frag := vmcFragReset ⟨x.buf.bytes, vmcVideoAuMax, 0, 0, 0, false⟩
  got := []
  outs := []

/-- The body of the drain loop for a slot that was handed out; `buf` is what the
next frame slot's buffer holds. -/
def UdpPath.play (s : UdpPath) (jb : JitterBuffer) (slot : JbSlot) (buf : FrameBuf) : UdpPath :=
  let (frag, out) := processSlot s.frag slot
  let frag :=
    match out with
    | some (.frame _ _) => nextBuffer frag buf
    | _ => frag
  { s with jb := vmcJbConsume jb, frag := frag, outs := s.outs ++ out.toList }

/-- The drain loop; the clock is read in every iteration.  `none` if it has not
ended after `fuel` iterations. -/
def drainLoop (clock : Nat → UInt64) (bufs : Nat → FrameBuf) :
    Nat → Nat → UdpPath → Option UdpPath
  | 0, _, _ => none
  | fuel + 1, i, s =>
      match vmcJbPeek s.jb (clock i) with
      | (none, jb) => some { s with jb := jb }
      | (some slot, jb) => drainLoop clock bufs fuel (i + 1) (s.play jb slot (bufs i))

/-- What happens to the client. -/
inductive PathOp where
  /-- The `k`-th datagram is received; the clock readings are those of the two
  places `vmc_jb_push` is called from. -/
  | arrive (k : Nat) (now1Us now2Us : UInt64)
  | drain (clock : Nat → UInt64) (bufs : Nat → FrameBuf)

/-- One step.  No drain takes more than an iteration for each slot and one more
(`drainLoop_isSome`). -/
def pathStep (x : UdpStream) (s : UdpPath) : PathOp → Option UdpPath
  | .arrive k now1Us now2Us => x.sent[k]?.map fun pkt =>
      { s with jb := receiveDatagram s.jb pkt x.out now1Us now2Us, got := k :: s.got }
  | .drain clock bufs => drainLoop clock bufs (vmcJbMaxSlots + 1) 0 s

/-- The arrivals considered: the first datagram comes first, none comes twice,
and each comes less than a window ahead of `next_seq`. -/
def Legal (x : UdpStream) (s : UdpPath) : PathOp → Prop
  | .arrive k _ _ => k < x.sent.length ∧ k ∉ s.got ∧ (s.got = [] → k = 0) ∧
      ahead (pushBase s.jb (x.seqOf k)).nextSeq (x.seqOf k) < vmcJbMaxSlots
  | .drain _ _ => True

/-- Every datagram arrives. -/
def AllArrive (x : UdpStream) (es : List PathOp) : Prop :=
  ∀ k < x.sent.length, ∃ now1Us now2Us, PathOp.arrive k now1Us now2Us ∈ es

/-- All that has arrived is older than the target delay whenever the clock is
read. -/
def Aged (x : UdpStream) (es : List PathOp) (clock : Nat → UInt64) : Prop :=
  ∀ k now1Us now2Us, PathOp.arrive k now1Us now2Us ∈ es →
    ∀ i, now1Us.toNat + x.targetDelayUs.toNat ≤ (clock i).toNat

/-! ## the drain loop ends -/

section Drain

variable (clock : Nat → UInt64) (bufs : Nat → FrameBuf)

theorem drainLoop_none {s : UdpPath} {i : Nat} (fuel : Nat)
    (h : (vmcJbPeek s.jb (clock i)).1 = none) :
    drainLoop clock bufs (fuel + 1) i s = some { s with jb := (vmcJbPeek s.jb (clock i)).2 } := by
  rw [drainLoop]
  split
  · next jb hpeek => rw [hpeek]
  · next slot jb hpeek =>
    rw [hpeek] at h
    contradiction

theorem drainLoop_some {s : UdpPath} {i : Nat} {slot : JbSlot} (fuel : Nat)
    (h : (vmcJbPeek s.jb (clock i)).1 = some slot) :
    drainLoop clock bufs (fuel + 1) i s =
      drainLoop clock bufs fuel (i + 1) (s.play (vmcJbPeek s.jb (clock i)).2 slot (bufs i)) := by
  rw [drainLoop]
  split
  · next jb hpeek =>
    rw [hpeek] at h
    contradiction
  · next slot' jb hpeek =>
    rw [hpeek] at h ⊢
    obtain rfl := Option.some.inj h
    rfl

/-- What is played leaves the buffer, and `next_seq` is the number behind it. -/
theorem consume_peek {jb : JitterBuffer} {nowUs : UInt64} {slot : JbSlot}
    (h : (vmcJbPeek jb nowUs).1 = some slot) :
    ∃ slot', slot'.seq = slot.seq ∧
      jb.contents.Perm (slot' :: (vmcJbConsume (vmcJbPeek jb nowUs).2).contents) ∧
      (vmcJbConsume (vmcJbPeek jb nowUs).2).nextSeq = slot.seq + 1 ∧
      (vmcJbConsume (vmcJbPeek jb nowUs).2).targetDelayUs = jb.targetDelayUs ∧
      (vmcJbConsume (vmcJbPeek jb nowUs).2).statsPushed = jb.statsPushed := by
  obtain ⟨hnone, -⟩ | ⟨mn, hmem, -, hnext, hout⟩ := peek_cases jb nowUs
  · rw [hnone] at h
    contradiction
  · obtain rfl : mn = slot := by
      obtain hout | hout := hout <;> rw [hout] at h
      · exact Option.some.inj h
      · contradiction
    obtain ⟨hno, -⟩ | ⟨slot', hseq, hperm, hnext', htarget, hpushed⟩ :=
      consume_spec (vmcJbPeek jb nowUs).2
    · rw [contents_peek, hnext] at hno
      exact absurd rfl (hno mn hmem)
    · rw [contents_peek] at hperm
      rw [targetDelayUs_peek] at htarget
      rw [statsPushed_peek] at hpushed
      rw [hnext] at hseq hnext'
      exact ⟨slot', hseq, hperm, hnext', htarget, hpushed⟩

/-- Each iteration takes a slot out of the buffer. -/
theorem drainLoop_isSome (fuel : Nat) :
    ∀ (i : Nat) (s : UdpPath), s.jb.contents.length < fuel →
      (drainLoop clock bufs fuel i s).isSome := by
  induction fuel with
  | zero =>
      intro i s h
      omega
  | succ fuel ih =>
      intro i s h
      cases hpeek : (vmcJbPeek s.jb (clock i)).1 with
      | none =>
          rw [drainLoop_none clock bufs fuel hpeek]
          rfl
      | some slot =>
          obtain ⟨slot', -, hperm, -⟩ := consume_peek hpeek
          have hlen := hperm.length_eq
          rw [List.length_cons] at hlen
          rw [drainLoop_some clock bufs fuel hpeek]
          exact ih _ _ (by dsimp only [UdpPath.play]; omega)

/-- A drain always comes to its end. -/
theorem drain_isSome (x : UdpStream) (s : UdpPath) (clock : Nat → UInt64) (bufs : Nat → FrameBuf) :
    ∃ s', pathStep x s (.drain clock bufs) = some s' := by
  apply Option.isSome_iff_exists.mp
  apply drainLoop_isSome
  have hle : s.jb.contents.length ≤ s.jb.slots.length := List.length_filter_le _ _
  rw [s.jb.size] at hle
  omega

end Drain

/-! ## positions in the stream -/

namespace UdpStream

variable (x : UdpStream)

/-- The datagrams before they are put into bytes. -/
def packets : List VideoPacket := packetsFrom x.ctx.videoSeq x.aus

theorem sent_eq : x.sent = x.packets.map VideoPacket.wire :=
  sendAll_eq x.draws x.pktSize x.aus x.ctx x.client (le_of_eq x.lossless)

theorem length_sent : x.sent.length = x.packets.length := by
  rw [sent_eq, List.length_map]

theorem seqOf_succ (m : Nat) : x.seqOf m + 1 = x.seqOf (m + 1) := by
  rw [seqOf, UInt32.add_assoc, ofNat_add_one]
  rfl

/-- Positions are told apart by their numbers within one turn. -/
theorem ahead_seqOf {m k : Nat} (h : m ≤ k) (hlt : k < m + 2 ^ 32) :
    ahead (x.seqOf m) (x.seqOf k) = k - m := by
  rw [seqOf, seqOf, ahead_add_left, ahead_ofNat h hlt]

theorem ahead_seqOf_behind {m k : Nat} (h : k < m) (hlt : m ≤ k + 2 ^ 32) :
    ahead (x.seqOf m) (x.seqOf k) = k + 2 ^ 32 - m := by
  rw [seqOf, seqOf, ahead_add_left, ahead_ofNat_behind h hlt]

theorem seqOf_inj {m i j : Nat} (hi : m ≤ i) (hi' : i < m + 2 ^ 32) (hj : m ≤ j)
    (hj' : j < m + 2 ^ 32) (h : x.seqOf i = x.seqOf j) : i = j := by
  have hahead := congrArg (ahead (x.seqOf m)) h
  rw [x.ahead_seqOf hi hi', x.ahead_seqOf hj hj'] at hahead
  omega

end UdpStream

variable {x : UdpStream} {T : UInt64 → Prop} {s : UdpPath} {m k : Nat}

/-- The slot holds one of the datagrams that have arrived, less than a window
past position `m`, received at a time that satisfies `T`. -/
def Holds (x : UdpStream) (T : UInt64 → Prop) (got : List Nat) (m : Nat) (slot : JbSlot) : Prop :=
  ∃ k p, k ∈ got ∧ m ≤ k ∧ k < m + vmcJbMaxSlots ∧ x.packets[k]? = some p ∧ slot.Carries p ∧
    slot.seq = x.seqOf k ∧ T slot.recvUs

/-- **Where the buffer stands.**  `next_seq` is the number of position `m`, and
every slot in use holds a datagram of the window that starts there. -/
structure Window (x : UdpStream) (T : UInt64 → Prop) (s : UdpPath) (m : Nat) : Prop where
  fresh : s.got = [] → m = 0
  first : s.got ≠ [] → 0 ∈ s.got
  nodup : s.got.Nodup
  sent : ∀ k ∈ s.got, k < x.packets.length
  le : m ≤ x.packets.length
  next : s.got ≠ [] → s.jb.nextSeq = x.seqOf m
  pushed : s.jb.statsPushed.toNat = s.got.length
  target : s.jb.targetDelayUs = x.targetDelayUs
  held : ∀ slot ∈ s.jb.contents, Holds x T s.got m slot
  distinct : (s.jb.contents.map (·.seq)).Nodup

namespace Window

theorem start (x : UdpStream) (T : UInt64 → Prop) : Window x T x.start 0 where
  fresh := fun _ => rfl
  first := fun h => absurd rfl h
  nodup := List.nodup_nil
  sent := by simp [UdpStream.start]
  le := Nat.zero_le _
  next := fun h => absurd rfl h
  pushed := rfl
  target := rfl
  held := by simp [UdpStream.start]
  distinct := by simp [UdpStream.start]

theorem weaken {T' : UInt64 → Prop} (h : Window x T s m) (hT : ∀ t, T t → T' t) :
    Window x T' s m where
  fresh := h.fresh
  first := h.first
  nodup := h.nodup
  sent := h.sent
  le := h.le
  next := h.next
  pushed := h.pushed
  target := h.target
  held := by
    intro slot hslot
    obtain ⟨k, p, hk, hlo, hhi, hp, hcarries, hseq, hrecv⟩ := h.held slot hslot
    exact ⟨k, p, hk, hlo, hhi, hp, hcarries, hseq, hT _ hrecv⟩
  distinct := h.distinct

/-- The first push sets the base, all others find it set. -/
theorem base (h : Window x T s m) (hfirst : s.got = [] → k = 0) :
    (pushBase s.jb (x.seqOf k)).nextSeq = x.seqOf m := by
  have hpushed := h.pushed
  unfold pushBase
  by_cases hgot : s.got = []
  · have hzero : s.jb.statsPushed = 0 := by
      apply UInt64.toNat_inj.mp
      rw [hpushed, hgot]
      rfl
    rw [if_pos hzero, hfirst hgot, h.fresh hgot]
  · have hpos : s.jb.statsPushed ≠ 0 := by
      intro hzero
      rw [hzero] at hpushed
      exact hgot (List.length_eq_zero_iff.mp hpushed.symm)
    rw [if_neg hpos, h.next hgot]

/-- Everything in the buffer lies less than a window ahead. -/
theorem ahead_lt (h : Window x T s m) {slot : JbSlot} (hslot : slot ∈ s.jb.contents) :
    ahead (x.seqOf m) slot.seq < vmcJbMaxSlots := by
  obtain ⟨k, p, -, hlo, hhi, -, -, hseq, -⟩ := h.held slot hslot
  rw [vmcJbMaxSlots] at hhi ⊢
  rw [hseq, x.ahead_seqOf hlo (by omega)]
  omega

/-- So everything lies ahead of `next_seq` and can be compared with it. -/
theorem ahead_half (h : Window x T s m) (hgot : s.got ≠ []) :
    ∀ slot ∈ s.jb.contents, ahead s.jb.nextSeq slot.seq < 2 ^ 31 := by
  intro slot hslot
  have hlt := h.ahead_lt hslot
  rw [vmcJbMaxSlots] at hlt
  rw [h.next hgot]
  omega

/-- A datagram that has not arrived is not in the buffer. -/
theorem seq_ne (h : Window x T s m) (hnew : k ∉ s.got) (hlo : m ≤ k) (hhi : k < m + vmcJbMaxSlots) :
    ∀ slot ∈ s.jb.contents, slot.seq ≠ x.seqOf k := by
  intro slot hslot heq
  obtain ⟨j, p, hj, hjlo, hjhi, -, -, hseq, -⟩ := h.held slot hslot
  rw [vmcJbMaxSlots] at hhi hjhi
  obtain rfl := x.seqOf_inj hjlo (by omega) hlo (by omega) (hseq.symm.trans heq)
  exact hnew hj

/-- There is room for it: a window has no more positions than there are
slots. -/
theorem room (h : Window x T s m) (hnew : k ∉ s.got) (hlo : m ≤ k) (hhi : k < m + vmcJbMaxSlots) :
    s.jb.contents.length < vmcJbMaxSlots := by
  refine room_of_window h.distinct (fun slot hslot => h.ahead_lt hslot) ?_ (h.seq_ne hnew hlo hhi)
  rw [vmcJbMaxSlots] at hhi ⊢
  rw [x.ahead_seqOf hlo (by omega)]
  omega

theorem accepts (h : Window x T s m) (hnew : k ∉ s.got) (hfirst : s.got = [] → k = 0)
    (hlo : m ≤ k) (hhi : k < m + vmcJbMaxSlots) : acceptsPush s.jb (x.seqOf k) = true := by
  refine acceptsPush_of (h.seq_ne hnew hlo hhi) ?_ (h.room hnew hlo hhi)
  have hahead : ahead (x.seqOf m) (x.seqOf k) = k - m :=
    x.ahead_seqOf hlo (by rw [vmcJbMaxSlots] at hhi; omega)
  rw [vmcJbMaxSlots] at hhi
  unfold outsideWindow seqCmp
  rw [h.base hfirst, cmp_base (by omega), hahead]
  rw [decide_eq_false_iff_not, vmcJbMaxSlots]
  omega

end Window

/-! ## an arrival -/

/-- Receiving a framed packet whose number the buffer accepts: it is pushed
once, and the key-frame reset is not taken. -/
theorem receive_accepted {jb : JitterBuffer} {p : VideoPacket} (hp : p.Framed)
    (hacc : acceptsPush jb p.header.seq = true) (out : DecodeOut) (now1Us now2Us : UInt64) :
    let jb' := receiveDatagram jb p.wire out now1Us now2Us
    jb'.nextSeq = (pushBase jb p.header.seq).nextSeq ∧ jb'.targetDelayUs = jb.targetDelayUs ∧
      jb'.statsPushed = jb.statsPushed + 1 ∧ jb'.contents.Perm (p.slot now1Us :: jb.contents) := by
  obtain ⟨d, hdec, hseq, -, hstream, hslot⟩ := decode_wire hp out
  have hpush : (jbPacket d now1Us).seq = p.header.seq := hseq
  obtain ⟨hnext, htarget, hcase⟩ := push_spec jb (jbPacket d now1Us)
  rw [hpush] at hnext hcase
  obtain ⟨-, hok, hpushed, hperm⟩ | ⟨hrej, -⟩ := hcase
  · rw [hslot] at hperm
    simp only [receiveDatagram, hdec, receiveVideo, hstream, if_true]
    rw [if_neg (by simp [hok])]
    exact ⟨hnext, htarget, hpushed, hperm⟩
  · rw [hacc] at hrej
    contradiction

/-- **Arrival.**  A datagram of the window joins the buffer and moves
nothing. -/
theorem arrive_spec (hlen : x.packets.length < 2 ^ 64) (h : Window x T s m)
    (hk : k < x.packets.length) (hnew : k ∉ s.got) (hfirst : s.got = [] → k = 0) (hlo : m ≤ k)
    (hhi : k < m + vmcJbMaxSlots) (now1Us now2Us : UInt64) (hT : T now1Us) :
    ∃ p s', x.packets[k]? = some p ∧ pathStep x s (.arrive k now1Us now2Us) = some s' ∧
      Window x T s' m ∧ s'.got = k :: s.got ∧ s'.frag = s.frag ∧ s'.outs = s.outs ∧
      s'.jb.contents.Perm (p.slot now1Us :: s.jb.contents) := by
  obtain ⟨p, hp⟩ : ∃ p, x.packets[k]? = some p := ⟨_, List.getElem?_eq_getElem hk⟩
  have hseq : p.header.seq = x.seqOf k := seq_packetsFrom _ _ hp
  have hframed : p.Framed := framed_of_mem_packetsFrom (List.mem_of_getElem? hp)
  obtain ⟨hnext, htarget, hpushed, hperm⟩ := receive_accepted hframed
    (hseq.symm ▸ h.accepts hnew hfirst hlo hhi) x.out now1Us now2Us
  rw [hseq, h.base hfirst] at hnext
  refine ⟨p, { s with
    jb := receiveDatagram s.jb p.wire x.out now1Us now2Us, got := k :: s.got },
    hp, ?_, ?_, rfl, rfl, rfl, hperm⟩
  · rw [pathStep, x.sent_eq, List.getElem?_map, hp]
    rfl
  · have hcount : s.got.length < x.packets.length := by
      have hsub : k :: s.got ⊆ List.range x.packets.length := by
        intro j hj
        obtain rfl | hj := List.mem_cons.mp hj
        · exact List.mem_range.mpr hk
        · exact List.mem_range.mpr (h.sent j hj)
      simpa using ((List.nodup_cons.mpr ⟨hnew, h.nodup⟩).subperm hsub).length_le
    constructor
    · exact fun hnil => absurd hnil (List.cons_ne_nil _ _)
    · intro _
      by_cases hgot : s.got = []
      · rw [hfirst hgot]
        exact List.mem_cons_self
      · exact List.mem_cons_of_mem k (h.first hgot)
    · exact List.nodup_cons.mpr ⟨hnew, h.nodup⟩
    · intro j hj
      obtain rfl | hj := List.mem_cons.mp hj
      · exact hk
      · exact h.sent j hj
    · exact h.le
    · exact fun _ => hnext
    · rw [hpushed, UInt64.toNat_add, h.pushed, List.length_cons]
      exact Nat.mod_eq_of_lt (by have : (1 : UInt64).toNat = 1 := rfl; omega)
    · rw [htarget, h.target]
    · intro slot hslot
      obtain rfl | hslot := List.mem_cons.mp (hperm.mem_iff.mp hslot)
      · exact ⟨k, p, List.mem_cons_self, hlo, hhi, hp, p.carries_slot now1Us, hseq, hT⟩
      · obtain ⟨j, q, hj, hrest⟩ := h.held slot hslot
        exact ⟨j, q, List.mem_cons_of_mem k hj, hrest⟩
    · refine (hperm.map (·.seq)).nodup_iff.mpr (List.nodup_cons.mpr ⟨?_, h.distinct⟩)
      intro hmem
      obtain ⟨slot, hslot, heq⟩ := List.mem_map.mp hmem
      exact h.seq_ne hnew hlo hhi slot hslot (heq.trans hseq)

/-! ## an iteration of the drain loop -/

/-- The same arrivals with the buffer moved on to position `j`. -/
theorem Window.moved (h : Window x T s m) (hgot : s.got ≠ []) {s' : UdpPath} {j : Nat}
    (hsame : s'.got = s.got) (hle : j ≤ x.packets.length) (hnext : s'.jb.nextSeq = x.seqOf j)
    (hpushed : s'.jb.statsPushed = s.jb.statsPushed)
    (htarget : s'.jb.targetDelayUs = s.jb.targetDelayUs)
    (hheld : ∀ slot ∈ s'.jb.contents, Holds x T s.got j slot)
    (hdistinct : (s'.jb.contents.map (·.seq)).Nodup) : Window x T s' j where
  fresh := fun hnil => absurd (hsame.symm.trans hnil) hgot
  first := fun _ => hsame.symm ▸ h.first hgot
  nodup := hsame.symm ▸ h.nodup
  sent := hsame.symm ▸ h.sent
  le := hle
  next := fun _ => hnext
  pushed := by rw [hpushed, hsame, h.pushed]
  target := htarget.trans h.target
  held := hsame.symm ▸ hheld
  distinct := hdistinct

/-- What a peek finds from position `m`: nothing, or the datagram of a position
`j` that nothing in the buffer lies before. -/
theorem peek_window (h : Window x T s m) (nowUs : UInt64) :
    ((vmcJbPeek s.jb nowUs).1 = none ∧ (vmcJbPeek s.jb nowUs).2.nextSeq = s.jb.nextSeq) ∨
    ∃ slot j p, j ∈ s.got ∧ m ≤ j ∧ j < m + vmcJbMaxSlots ∧ x.packets[j]? = some p ∧
      slot.Carries p ∧ slot.seq = x.seqOf j ∧
      (∀ slot' ∈ s.jb.contents, Holds x T s.got j slot') ∧
      (vmcJbPeek s.jb nowUs).2.nextSeq = x.seqOf j ∧
      ((vmcJbPeek s.jb nowUs).1 = some slot ∨ (vmcJbPeek s.jb nowUs).1 = none) := by
  obtain hstay | ⟨mn, hmn, hleast, hnext, hout⟩ := peek_cases s.jb nowUs
  · exact .inl hstay
  · obtain ⟨j, p, hj, hlo, hhi, hp, hcarries, hseq, -⟩ := h.held mn hmn
    have hgot : s.got ≠ [] := List.ne_nil_of_mem hj
    have hbefore : ∀ slot ∈ s.jb.contents,
        ahead (x.seqOf m) (x.seqOf j) ≤ ahead (x.seqOf m) slot.seq := by
      have hleast' := hleast (h.ahead_half hgot)
      rwa [h.next hgot, hseq] at hleast'
    rw [hseq] at hnext
    refine .inr ⟨mn, j, p, hj, hlo, hhi, hp, hcarries, hseq, ?_, hnext, hout⟩
    intro slot hslot
    obtain ⟨i, q, hi, hilo, hihi, hq, hqcarries, hqseq, hT⟩ := h.held slot hslot
    have hle := hbefore slot hslot
    rw [vmcJbMaxSlots] at hhi hihi
    rw [hqseq, x.ahead_seqOf hlo (by omega), x.ahead_seqOf hilo (by omega)] at hle
    exact ⟨i, q, hi, by omega, by rw [vmcJbMaxSlots]; omega, hq, hqcarries, hqseq, hT⟩

/-- Everything before position `m` has been played in order: the rest of what
arrived is in the buffer, and the assembler waits for position `m`. -/
structure Synced (x : UdpStream) (s : UdpPath) (m : Nat) : Prop where
  held : ∀ k ∈ s.got, m ≤ k → ∃ slot ∈ s.jb.contents, slot.seq = x.seqOf k
  waits : ∃ todo, Expects s.frag (x.packets.drop m) todo ∧ s.outs ++ todo = x.frames

/-- In a synced buffer that holds position `m`, nothing is jumped over. -/
theorem Synced.next_held (h : Synced x s m) (hm : m ∈ s.got) {j : Nat} (hlo : m ≤ j)
    (hhi : j < m + vmcJbMaxSlots) (hheld : ∀ slot ∈ s.jb.contents, Holds x T s.got j slot) :
    j = m := by
  obtain ⟨slot, hslot, hseq⟩ := h.held m hm (le_refl m)
  obtain ⟨i, p, -, hilo, hihi, -, -, hiseq, -⟩ := hheld slot hslot
  rw [vmcJbMaxSlots] at hhi hihi
  have him := x.seqOf_inj (le_trans hlo hilo) (by omega) (le_refl m) (by omega)
    (hiseq.symm.trans hseq)
  omega

/-- A slot that is handed out is that of a position `j`, and the buffer goes on
from the one behind it. -/
theorem play_window (h : Window x T s m) {nowUs : UInt64} {slot : JbSlot}
    (hpeek : (vmcJbPeek s.jb nowUs).1 = some slot) (buf : FrameBuf) :
    ∃ j p, m ≤ j ∧ j < m + vmcJbMaxSlots ∧ x.packets[j]? = some p ∧ slot.Carries p ∧
      slot.seq = x.seqOf j ∧ (∀ slot' ∈ s.jb.contents, Holds x T s.got j slot') ∧
      Window x T (s.play (vmcJbPeek s.jb nowUs).2 slot buf) (j + 1) := by
  obtain ⟨hnone, -⟩ | ⟨mn, j, p, hj, hlo, hhi, hp, hcarries, hseq, hheld, -, hout⟩ :=
    peek_window h nowUs
  · rw [hnone] at hpeek
    contradiction
  · obtain rfl : mn = slot := by
      obtain hout | hout := hout <;> rw [hout] at hpeek
      · exact Option.some.inj hpeek
      · contradiction
    refine ⟨j, p, hlo, hhi, hp, hcarries, hseq, hheld, ?_⟩
    obtain ⟨gone, hgone, hperm, hnext, htarget, hpushed⟩ := consume_peek hpeek
    have hdistinct := (hperm.map (·.seq)).nodup_iff.mp h.distinct
    rw [List.map_cons, List.nodup_cons] at hdistinct
    refine h.moved (List.ne_nil_of_mem hj) rfl (List.getElem?_eq_some_iff.mp hp).1
      (by rw [← x.seqOf_succ, ← hseq]; exact hnext) hpushed htarget ?_ hdistinct.2
    intro slot' hslot'
    obtain ⟨i, q, hi, hilo, hihi, hq, hqcarries, hqseq, hT⟩ :=
      hheld slot' (hperm.mem_iff.mpr (List.mem_cons_of_mem gone hslot'))
    -- the position just played had one slot only
    have hne : i ≠ j := by
      rintro rfl
      exact hdistinct.1 (List.mem_map.mpr ⟨slot', hslot', by rw [hgone, hseq, hqseq]⟩)
    rw [vmcJbMaxSlots] at hihi
    exact ⟨i, q, hi, by omega, by rw [vmcJbMaxSlots]; omega, hq, hqcarries, hqseq, hT⟩

/-- Playing position `m` in sync keeps the path in sync. -/
theorem Synced.play (h : Synced x s m) {nowUs : UInt64} {slot : JbSlot}
    (hpeek : (vmcJbPeek s.jb nowUs).1 = some slot) {p : VideoPacket}
    (hp : x.packets[m]? = some p) (hcarries : slot.Carries p) (hseq : slot.seq = x.seqOf m)
    (hlen : x.packets.length < 2 ^ 32) (hsent : ∀ k ∈ s.got, k < x.packets.length)
    (buf : FrameBuf) : Synced x (s.play (vmcJbPeek s.jb nowUs).2 slot buf) (m + 1) := by
  constructor
  · intro k hk hmk
    obtain ⟨slot', hslot', hseq'⟩ := h.held k hk (by omega)
    obtain ⟨gone, hgone, hperm, -⟩ := consume_peek hpeek
    refine ⟨slot', ?_, hseq'⟩
    obtain rfl | hrest := List.mem_cons.mp (hperm.mem_iff.mp hslot')
    · have hklt := hsent k hk
      have hkm := x.seqOf_inj (m := m) (by omega) (by omega) (le_refl m) (by omega)
        (hseq'.symm.trans (hgone.trans hseq))
      omega
    · exact hrest
  · obtain ⟨todo, hexp, houts⟩ := h.waits
    obtain ⟨hlt, rfl⟩ := List.getElem?_eq_some_iff.mp hp
    rw [List.drop_eq_getElem_cons hlt] at hexp
    unfold UdpPath.play
    obtain ⟨hnone, hrest⟩ | ⟨o, todo', hsome, rfl, hidle, hrest⟩ :=
      processSlot_expects hexp hcarries
    · refine ⟨todo, ?_, ?_⟩
      · simpa only [hnone] using hrest
      · simpa only [hnone, Option.toList_none, List.append_nil] using houts
    · refine ⟨todo', ?_, ?_⟩
      · apply hrest
        simp only [hsome]
        cases o with
        | frame au tsUs => exact hidle.nextBuffer buf
        | inline au => exact hidle
      · simpa only [hsome, Option.toList_some, List.append_assoc, List.singleton_append] using houts

/-! ## a whole drain -/

/-- A peek that hands out nothing may still move the buffer, but not past a
datagram that is there. -/
theorem peek_moves (h : Window x T s m) (nowUs : UInt64) :
    ∃ m', m ≤ m' ∧ Window x T { s with jb := (vmcJbPeek s.jb nowUs).2 } m' ∧
      ((∀ k < m', k ∈ s.got) → Synced x s m →
        Synced x { s with jb := (vmcJbPeek s.jb nowUs).2 } m') := by
  have hstill : Synced x s m → Synced x { s with jb := (vmcJbPeek s.jb nowUs).2 } m := by
    intro hs
    constructor
    · simpa only [contents_peek] using hs.held
    · exact hs.waits
  obtain ⟨-, hnext⟩ | ⟨slot, j, p, hj, hlo, hhi, hp, -, -, hheld, hnext, -⟩ := peek_window h nowUs
  · refine ⟨m, le_refl m, ?_, fun _ => hstill⟩
    by_cases hgot : s.got = []
    · constructor
      · exact fun _ => h.fresh hgot
      · exact fun hne => absurd hgot hne
      · exact h.nodup
      · exact h.sent
      · exact h.le
      · exact fun hne => absurd hgot hne
      · simpa only [statsPushed_peek] using h.pushed
      · simpa only [targetDelayUs_peek] using h.target
      · simpa only [contents_peek] using h.held
      · simpa only [contents_peek] using h.distinct
    · exact h.moved hgot rfl h.le (hnext.trans (h.next hgot)) (statsPushed_peek _ _)
        (targetDelayUs_peek _ _) (by simpa only [contents_peek] using h.held)
        (by simpa only [contents_peek] using h.distinct)
  · have hjlt := (List.getElem?_eq_some_iff.mp hp).1
    refine ⟨j, hlo, ?_, fun hall hs => ?_⟩
    · exact h.moved (List.ne_nil_of_mem hj) rfl (le_of_lt hjlt) hnext (statsPushed_peek _ _)
        (targetDelayUs_peek _ _) (by simpa only [contents_peek] using hheld)
        (by simpa only [contents_peek] using h.distinct)
    · by_cases hm : m = j
      · exact hm ▸ hstill hs
      · exact absurd (hs.next_held (hall m (by omega)) hlo hhi hheld) (Ne.symm hm)

/-- **Drain.**  The buffer only moves forward; and if nothing it has moved past
is missing, then it was all played in order. -/
theorem drain_window (hlen : x.packets.length < 2 ^ 32) {clock : Nat → UInt64}
    {bufs : Nat → FrameBuf} {s' : UdpPath} (fuel : Nat) :
    ∀ {i : Nat} {s : UdpPath} {m : Nat}, Window x T s m →
      drainLoop clock bufs fuel i s = some s' →
      s'.got = s.got ∧ ∃ m', m ≤ m' ∧ Window x T s' m' ∧
        ((∀ k < m', k ∈ s.got) → Synced x s m → Synced x s' m') := by
  induction fuel with
  | zero =>
      intro i s m _ hrun
      simp [drainLoop] at hrun
  | succ fuel ih =>
      intro i s m h hrun
      cases hpeek : (vmcJbPeek s.jb (clock i)).1 with
      | none =>
          rw [drainLoop_none clock bufs fuel hpeek] at hrun
          obtain rfl := Option.some.inj hrun
          exact ⟨rfl, peek_moves h (clock i)⟩
      | some slot =>
          rw [drainLoop_some clock bufs fuel hpeek] at hrun
          obtain ⟨j, p, hlo, hhi, hp, hcarries, hseq, hheld, hplay⟩ := play_window h hpeek (bufs i)
          obtain ⟨hgot, m', hle, hwin, hsync⟩ := ih hplay hrun
          refine ⟨hgot, m', by omega, hwin, fun hall hs => hsync hall ?_⟩
          obtain rfl := hs.next_held (hall m (by omega)) hlo hhi hheld
          exact hs.play hpeek hp hcarries hseq hlen h.sent (bufs i)

/-- **The last drain.**  With everything there and old enough, the path in sync
is drained to the end of the stream. -/
theorem drain_complete (hlen : x.packets.length < 2 ^ 32) {clock : Nat → UInt64}
    {bufs : Nat → FrameBuf} {s' : UdpPath}
    (hold : ∀ t i, T t → t.toNat + x.targetDelayUs.toNat ≤ (clock i).toNat) (fuel : Nat) :
    ∀ {i : Nat} {s : UdpPath} {m : Nat}, Window x T s m → Synced x s m →
      (∀ k < x.packets.length, k ∈ s.got) → drainLoop clock bufs fuel i s = some s' →
      s'.outs = x.frames := by
  induction fuel with
  | zero =>
      intro i s m _ _ _ hrun
      simp [drainLoop] at hrun
  | succ fuel ih =>
      intro i s m h hs hall hrun
      cases hpeek : (vmcJbPeek s.jb (clock i)).1 with
      | none =>
          rw [drainLoop_none clock bufs fuel hpeek] at hrun
          obtain rfl := Option.some.inj hrun
          have hend : x.packets.length ≤ m := by
            by_contra hlt
            have hm := hall m (by omega)
            have hgot := List.ne_nil_of_mem hm
            refine peek_ready (h.ahead_half hgot) ?_ ?_ hpeek
            · intro slot hslot
              obtain ⟨k, p, -, -, -, -, -, -, hT⟩ := h.held slot hslot
              have haged := hold slot.recvUs i hT
              rw [oldEnough, decide_eq_true_iff, h.target]
              show x.targetDelayUs ≤ clock i - slot.recvUs
              rw [UInt64.le_iff_toNat_le,
                UInt64.toNat_sub_of_le _ _ (UInt64.le_iff_toNat_le.mpr (by omega))]
              omega
            · rw [h.next hgot]
              exact hs.held m hm (le_refl m)
          obtain ⟨todo, hexp, houts⟩ := hs.waits
          rw [hexp.todo_eq_nil (List.drop_eq_nil_of_le hend), List.append_nil] at houts
          exact houts
      | some slot =>
          rw [drainLoop_some clock bufs fuel hpeek] at hrun
          obtain ⟨j, p, hlo, hhi, hp, hcarries, hseq, hheld, hplay⟩ := play_window h hpeek (bufs i)
          have hjlt := (List.getElem?_eq_some_iff.mp hp).1
          obtain rfl := hs.next_held (hall m (by omega)) hlo hhi hheld
          exact ih hplay (hs.play hpeek hp hcarries hseq hlen h.sent (bufs i)) hall hrun

end Vmc
