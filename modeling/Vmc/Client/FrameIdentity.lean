import Vmc.Client.SlotConservation

/-!
# Vmc.Client.FrameIdentity

Which frame an entry of the present queue is about (`apps/thinclient/main.c`).

The conversion is delayed by one frame: frame `i` is handed to the present
worker when frame `i + 1` has been decoded, from what the `g_pending_*` globals
say of it.  Buffer and deadline are stored there at the end of an iteration, the
identity in the middle of the next one, before the push.  So the push of frame
`i` carries the presentation time of frame `i + 1`; and as the branch that
stores an identity is not taken for the first frame, that one is noted as frame
0 of segment 0 at time 0.

`DecodeLoop.Pipelined` says what the globals hold at each point of the
iteration, and `push_describes_iff` when an entry comes out right all the same.
-/

namespace Vmc

/-! ## identities -/

/-- What tells frames apart: number, segment and presentation time. -/
def Frame.identity (f : Frame) : UInt32 × Int × Int := (f.fidx, f.seg, f.ptsUs)

def PendingConv.identity (p : PendingConv) : UInt32 × Int × Int := (p.fidx, p.seg, p.ptsUs)

def Vmeta.identity (m : Vmeta) : UInt32 × Int × Int := (m.fidx, m.seg, m.ptsUs)

/-- A push and `g_vmeta` at the time both are about `f`. -/
def DescribesFrame (f : DrmFrame) (p : PresentEntry × Option Vmeta) : Prop :=
  p.1 = ⟨some f.buf, f.frame.deadlineUs, f.frame.ptsUs⟩ ∧
    ∃ m, p.2 = some m ∧ m.identity = f.frame.identity ∧ m.deadlineUs = f.frame.deadlineUs

/-- What is noted as the identity of the frame numbered `i`. -/
def notedIdentity (i : Nat) (f : Frame) : UInt32 × Int × Int := if i = 0 then (0, 0, 0) else f.identity

/-- What the push numbered `i` is made of, with `f` the frame of that number and
`g` the next one. -/
def PushedAs (i : Nat) (f g : DrmFrame) (p : PresentEntry × Option Vmeta) : Prop :=
  p.1 = ⟨some f.buf, f.frame.deadlineUs, g.frame.ptsUs⟩ ∧
    ∃ m, p.2 = some m ∧ m.identity = notedIdentity i f.frame ∧
      m.deadlineUs = f.frame.deadlineUs

/-- Such a push is right exactly if the next frame has the same presentation time
and, for the first one, the identity is the one of a frame never seen. -/
theorem PushedAs.describes_iff {i : Nat} {f g : DrmFrame} {p : PresentEntry × Option Vmeta}
    (h : PushedAs i f g p) :
    DescribesFrame f p ↔ g.frame.ptsUs = f.frame.ptsUs ∧
      (i = 0 → f.frame.fidx = 0 ∧ f.frame.seg = 0 ∧ f.frame.ptsUs = 0) := by
  obtain ⟨hentry, m, hm, hid, hdl⟩ := h
  have hnoted : notedIdentity i f.frame = f.frame.identity ↔
      (i = 0 → f.frame.fidx = 0 ∧ f.frame.seg = 0 ∧ f.frame.ptsUs = 0) := by
    by_cases hi : i = 0
    · simp only [notedIdentity, if_pos hi, Frame.identity, Prod.mk.injEq]
      grind
    · simp [notedIdentity, hi]
  rw [DescribesFrame, hentry, ← hnoted]
  constructor
  · rintro ⟨heq, m', hm', hid', -⟩
    obtain rfl : m = m' := Option.some.inj (hm.symm.trans hm')
    exact ⟨(PresentEntry.mk.inj heq).2.2, hid.symm.trans hid'⟩
  · rintro ⟨hpts, heq⟩
    exact ⟨by rw [hpts], m, hm, hid.trans heq, hdl⟩

namespace DecodeLoop

variable {s s' : DecodeLoop}

/-! ## the globals along the iteration -/

/-- Between two iterations, with `fs` the frames so far: the last of them is
pending. -/
def PendingLast (s : DecodeLoop) (fs : List DrmFrame) : Prop :=
  (fs = [] ∧ s.pushes = [] ∧ s.pending = .zero) ∨
    ∃ f, fs.length = s.pushes.length + 1 ∧ fs[s.pushes.length]? = some f ∧ s.pending.ev = true ∧
      s.pending.bufIdx = some f.buf ∧ s.pending.deadlineUs = f.frame.deadlineUs ∧
      s.pending.identity = notedIdentity s.pushes.length f.frame

/-- The frame being decoded has its buffer, and is still in its slot. -/
def Decoded (s : DecodeLoop) (job : DecodeJob) (buf : Nat) : Prop :=
  ∃ fs cur, s.frames = fs ++ [cur] ∧ s.PendingLast fs ∧ cur.buf = buf ∧
    ∃ x, s.pool.slots[job.idx]? = some x ∧ x.toFrame = cur.frame

/-- Where the frames are, at each point of the iteration. -/
def Stage (s : DecodeLoop) : Prop :=
  match s.worker with
  | .acquired job buf => s.Decoded job buf
  | .converted job buf ev => ev = true ∧ s.Decoded job buf
  | .handedOver dl buf ev => ev = true ∧ ∃ f cur, s.frames.length = s.pushes.length + 2 ∧
      s.frames[s.pushes.length]? = some f ∧ s.frames[s.pushes.length + 1]? = some cur ∧
      s.pending.bufIdx = some f.buf ∧ s.pending.deadlineUs = f.frame.deadlineUs ∧
      s.pending.identity = cur.frame.identity ∧ buf = cur.buf ∧ dl = cur.frame.deadlineUs ∧
      ∃ m, s.vmeta[f.buf]? = some m ∧ m.identity = notedIdentity s.pushes.length f.frame ∧
        m.deadlineUs = f.frame.deadlineUs
  | .pushed dl buf ev => ev = true ∧ ∃ cur, s.frames.length = s.pushes.length + 1 ∧
      s.frames[s.pushes.length]? = some cur ∧ s.pushes ≠ [] ∧
      s.pending.identity = cur.frame.identity ∧ buf = cur.buf ∧ dl = cur.frame.deadlineUs
  | _ => s.PendingLast s.frames

/-- The frames on their way, and what has been pushed. -/
structure Pipelined (s : DecodeLoop) : Prop extends SlotsHeld s where
  nbufs : s.drm.nbufs ≤ vmcDrmMaxBufs
  vmetaSize : s.vmeta.length = vmcDrmMaxBufs
  bufs : ∀ f ∈ s.frames, f.buf < vmcDrmMaxBufs
  stage : s.Stage
  pushed : ∀ (i : Nat) (p : PresentEntry × Option Vmeta), s.pushes[i]? = some p →
    ∃ f g, s.frames[i]? = some f ∧ s.frames[i + 1]? = some g ∧ PushedAs i f g p

theorem pipelined_init {useDrm : Bool} {nbufs : Nat} (hhi : nbufs ≤ vmcDrmMaxBufs) :
    (init useDrm nbufs).Pipelined := by
  refine ⟨slotsHeld_init useDrm nbufs, hhi, List.length_replicate, by simp [init], ?_,
    by simp [init]⟩
  exact .inl ⟨rfl, rfl, rfl⟩

/-- Steps of the other threads, which leave the worker's slot alone. -/
theorem Pipelined.of_others (h : s.Pipelined) (hheld : s'.SlotsHeld)
    (hslot : ∀ i, s.worker.slot = some i → s'.pool.slots[i]? = s.pool.slots[i]?)
    (hnbufs : s'.drm.nbufs = s.drm.nbufs) (hworker : s'.worker = s.worker)
    (hpending : s'.pending = s.pending) (hvmeta : s'.vmeta = s.vmeta)
    (hframes : s'.frames = s.frames) (hpushes : s'.pushes = s.pushes) : s'.Pipelined := by
  refine ⟨hheld, hnbufs ▸ h.nbufs, hvmeta ▸ h.vmetaSize, hframes ▸ h.bufs, ?_, ?_⟩
  · have hstage := h.stage
    have hlast : ∀ fs, s.PendingLast fs → s'.PendingLast fs := by
      intro fs hfs
      rw [PendingLast, hpending, hpushes]
      exact hfs
    have hdecoded : ∀ job buf, s.worker.slot = some job.idx → s.Decoded job buf →
        s'.Decoded job buf := by
      rintro job buf hw ⟨fs, cur, hfs, hpl, hbuf, x, hx, hcur⟩
      exact ⟨fs, cur, hframes.trans hfs, hlast fs hpl, hbuf, x, (hslot _ hw).trans hx, hcur⟩
    rw [Stage, hworker]
    rw [Stage] at hstage
    cases hw : s.worker with
    | acquired job buf =>
        rw [hw] at hstage
        exact hdecoded job buf (by rw [hw]; rfl) hstage
    | converted job buf ev =>
        rw [hw] at hstage
        exact ⟨hstage.1, hdecoded job buf (by rw [hw]; rfl) hstage.2⟩
    | handedOver | pushed =>
        rw [hw] at hstage
        dsimp only at hstage ⊢
        simp only [hframes, hpushes, hpending, hvmeta]
        exact hstage
    | atSelect | selected | marked | acquiring | releasing =>
        rw [hw] at hstage
        exact hframes ▸ hlast _ hstage
  · rw [hframes, hpushes]
    exact h.pushed

/-- Steps of the worker by which nothing is decoded or pushed. -/
theorem Pipelined.of_stage (h : s.Pipelined) (hheld : s'.SlotsHeld)
    (hnbufs : s'.drm.nbufs = s.drm.nbufs) (hvmeta : s'.vmeta.length = s.vmeta.length)
    (hframes : s'.frames = s.frames) (hpushes : s'.pushes = s.pushes) (hstage : s'.Stage) :
    s'.Pipelined := by
  refine ⟨hheld, hnbufs ▸ h.nbufs, hvmeta ▸ h.vmetaSize, hframes ▸ h.bufs, hstage, ?_⟩
  rw [hframes, hpushes]
  exact h.pushed

/-- The frames keep their numbers. -/
theorem getElem?_frames_append {fs : List DrmFrame} {i : Nat} {f : DrmFrame} (h : fs[i]? = some f)
    (gs : List DrmFrame) : (fs ++ gs)[i]? = some f := by
  rw [List.getElem?_append_left (List.getElem?_eq_some_iff.mp h).1, h]

theorem pipelined_nextIdx (h : s.Pipelined) (hstep : decodeStep s .nextIdx = some s') :
    s'.Pipelined := by
  have hheld := slotsHeld_step h.toSlotsHeld hstep
  obtain ⟨job, waited, hw, rfl⟩ := effect_of_decodeStep hstep
  have hstage := h.stage
  rw [Stage, hw] at hstage
  obtain ⟨x, hx, -⟩ := h.worker job.idx (by rw [hw]; rfl)
  obtain ⟨buf, hbuf, heq⟩ | ⟨pc, rfl | rfl, heq⟩ := acquireStep_cases s job waited
  · rw [heq] at hheld ⊢
    have hlt := DrmScanout.nextIdx_lt hbuf
    have hmax := h.nbufs
    have hframe : (s.pool.slots[job.idx]?.map fun x => (⟨x.toFrame, buf⟩ : DrmFrame)).toList =
        [⟨x.toFrame, buf⟩] := by
      rw [hx]
      rfl
    rw [hframe] at hheld ⊢
    refine ⟨hheld, s.drm.nbufs_nextIdx ▸ h.nbufs, h.vmetaSize, ?_, ?_, ?_⟩
    · intro f hf
      obtain hf | hf := List.mem_append.mp hf
      · exact h.bufs f hf
      · rw [List.mem_singleton.mp hf]
        exact Nat.lt_of_lt_of_le hlt hmax
    · exact ⟨s.frames, ⟨x.toFrame, buf⟩, rfl, hstage, rfl, x, hx, rfl⟩
    · intro i p hp
      obtain ⟨f, g, hf, hg, hpush⟩ := h.pushed i p hp
      exact ⟨f, g, getElem?_frames_append hf _, getElem?_frames_append hg _, hpush⟩
  all_goals
    rw [heq] at hheld ⊢
    exact h.of_stage hheld rfl rfl rfl rfl hstage

/-- The pending frame's identity goes to `g_vmeta`, and the next one's in its
place. -/
theorem pipelined_handOver (h : s.Pipelined) {convUs : UInt64}
    (hstep : decodeStep s (.handOver convUs) = some s') : s'.Pipelined := by
  have hheld := slotsHeld_step h.toSlotsHeld hstep
  obtain ⟨job, buf, ev, x, hw, hev, hx, rfl⟩ := effect_of_decodeStep hstep
  have hstage := h.stage
  rw [Stage, hw] at hstage
  obtain ⟨hev', fs, cur, hfs, hlast, hbuf, y, hy, hcur⟩ := hstage
  obtain rfl : x = y := Option.some.inj (hx.symm.trans hy)
  obtain ⟨-, -, hzero⟩ | ⟨f, hlen, hf, -, hfbuf, hdl, hid⟩ := hlast
  · rw [hzero] at hev
    contradiction
  · have hfs' : s.frames[s.pushes.length]? = some f := by
      rw [hfs]
      exact getElem?_frames_append hf _
    have hcur' : s.frames[s.pushes.length + 1]? = some cur := by
      rw [hfs, ← hlen]
      simp
    have hflt : f.buf < s.vmeta.length := by
      rw [h.vmetaSize]
      exact h.bufs f (List.mem_of_getElem? hfs')
    have hdl' : job.deadlineUs = cur.frame.deadlineUs := by
      obtain ⟨z, hz, hexp⟩ := h.worker job.idx (by rw [hw]; rfl)
      obtain rfl : x = z := Option.some.inj (hx.symm.trans hz)
      rw [hw] at hexp
      rw [← hexp.2, ← hcur]
    refine h.of_stage hheld rfl ?_ rfl rfl ?_
    · dsimp only
      rw [hfbuf]
      exact List.length_set
    · refine ⟨hev', f, cur, ?_, hfs', hcur', hfbuf, hdl, ?_, hbuf.symm, hdl',
        s.pending.vmeta convUs, ?_, hid, hdl⟩
      · dsimp only
        rw [hfs, List.length_append, hlen]
        rfl
      · rw [← hcur]
        rfl
      · dsimp only
        rw [hfbuf]
        exact List.getElem?_set_self hflt

/-- The push is made from the pending buffer and deadline, and the identity just
stored. -/
theorem pipelined_push (h : s.Pipelined) (hstep : decodeStep s .push = some s') : s'.Pipelined := by
  have hheld := slotsHeld_step h.toSlotsHeld hstep
  obtain ⟨dl, buf, ev, hw, rfl⟩ := effect_of_decodeStep hstep
  have hstage := h.stage
  rw [Stage, hw] at hstage
  obtain ⟨hev, f, cur, hlen, hf, hcur, hfbuf, hdl, hid, hbuf, hdl', m, hm, hmid, hmdl⟩ := hstage
  refine ⟨hheld, h.nbufs, h.vmetaSize, h.bufs, ?_, ?_⟩
  · refine ⟨hev, cur, ?_, ?_, by simp, hid, hbuf, hdl'⟩
    · simp [hlen]
    · simpa using hcur
  · intro i p hp
    rw [List.getElem?_append] at hp
    split at hp
    · exact h.pushed i p hp
    · next hi =>
      obtain ⟨rfl, rfl⟩ : i = s.pushes.length ∧
          (s.pending.entry, s.pending.bufIdx.bind fun b => s.vmeta[b]?) = p := by
        rw [List.getElem?_singleton] at hp
        grind
      refine ⟨f, cur, hf, hcur, ?_, m, ?_, hmid, hmdl⟩
      · have hpts := congrArg (·.2.2) hid
        dsimp only [PendingConv.identity, Frame.identity] at hpts
        rw [PendingConv.entry, hfbuf, hdl, hpts]
      · simp [hfbuf, hm]

/-- The new conversion is the pending one; the first of all without an
identity. -/
theorem pipelined_setPending (h : s.Pipelined) (hstep : decodeStep s .setPending = some s') :
    s'.Pipelined := by
  have hheld := slotsHeld_step h.toSlotsHeld hstep
  obtain ⟨dl, buf, ev, rfl, hw⟩ := effect_of_decodeStep hstep
  have hstage := h.stage
  refine h.of_stage hheld rfl rfl rfl rfl (.inr ?_)
  obtain hw | ⟨job, hw, hdl, hev⟩ := hw
  · rw [Stage, hw] at hstage
    obtain ⟨hev, cur, hlen, hcur, hne, hid, hbuf, hdl⟩ := hstage
    refine ⟨cur, hlen, hcur, hev, congrArg some hbuf, hdl, ?_⟩
    have hpos : s.pushes.length ≠ 0 := by simpa using hne
    rw [notedIdentity, setPendingTo, if_neg hpos]
    exact hid
  · rw [Stage, hw] at hstage
    obtain ⟨hev', fs, cur, hfs, hlast, hbuf, x, hx, hcur⟩ := hstage
    obtain ⟨rfl, hnone, hzero⟩ | ⟨f, -, -, hpend, -⟩ := hlast
    · obtain ⟨y, hy, hexp⟩ := h.worker job.idx (by rw [hw]; rfl)
      obtain rfl : x = y := Option.some.inj (hx.symm.trans hy)
      rw [hw] at hexp
      refine ⟨cur, ?_, ?_, hev', congrArg some hbuf.symm, ?_, ?_⟩
      · simp [setPendingTo, hfs, hnone]
      · simp [setPendingTo, hfs, hnone]
      · rw [← hcur, hexp.2]
        exact hdl.symm
      · simp [setPendingTo, hnone, notedIdentity, PendingConv.identity, hzero, PendingConv.zero]
    · rw [hev] at hpend
      contradiction

/-- Every conversion succeeds. -/
def ConvertsAll : DecodeOp → Prop
  | .convAsync ev => ev = true
  | _ => True

theorem pipelined_step {op : DecodeOp} (h : s.Pipelined) (hconv : ConvertsAll op)
    (hstep : decodeStep s op = some s') : s'.Pipelined := by
  have hheld := slotsHeld_step h.toSlotsHeld hstep
  have heffect := effect_of_decodeStep hstep
  have hstage := h.stage
  have hne : ∀ {w : Nat} {x : FrameSlot}, s.pool.slots[w]? = some x →
      x.state = .free ∨ x.state = .writing → ∀ i, s.worker.slot = some i → w ≠ i := by
    rintro w x hx hst i hi rfl
    exact h.slot_ne hx hst hi
  cases op with
  | take =>
      obtain ⟨-, w, hw, rfl⟩ := heffect
      obtain ⟨x, hx, hfree⟩ := Pool.exists_of_findIdx? hw
      refine h.of_others hheld (fun i hi => ?_) rfl rfl rfl rfl rfl rfl
      rw [getElem?_mark_of_ne s.pool (hne hx (.inl (by simpa using hfree)) i hi)]
  | publish f =>
      obtain ⟨w, hw, rfl⟩ := heffect
      obtain ⟨x, hx, hst⟩ := h.writing w hw
      have hlt : w < vmcFrameSlots := s.pool.size ▸ (List.getElem?_eq_some_iff.mp hx).1
      refine h.of_others hheld (fun i hi => ?_) rfl rfl rfl rfl rfl rfl
      rw [slotPublish, getElem?_put s.pool hlt, if_neg (hne hx (.inr hst) i hi)]
  | discard =>
      obtain ⟨w, hw, rfl⟩ := heffect
      obtain ⟨x, hx, hst⟩ := h.writing w hw
      refine h.of_others hheld (fun i hi => ?_) rfl rfl rfl rfl rfl rfl
      rw [getElem?_mark_of_ne s.pool (hne hx (.inr hst) i hi)]
  | select =>
      obtain ⟨hw, i, x, -, -, rfl⟩ := heffect
      rw [Stage, hw] at hstage
      exact h.of_stage hheld rfl rfl rfl rfl hstage
  | mark | stopWaiting =>
      obtain ⟨i, dl, hw, rfl⟩ := heffect
      rw [Stage, hw] at hstage
      exact h.of_stage hheld rfl rfl rfl rfl hstage
  | decode ok decodeUs =>
      obtain ⟨i, dl, hw, rfl⟩ := heffect
      rw [Stage, hw] at hstage
      refine h.of_stage hheld rfl rfl rfl rfl ?_
      rw [Stage]
      dsimp only
      split <;> grind [PendingLast]
  | nextIdx => exact pipelined_nextIdx h hstep
  | convAsync ev =>
      obtain ⟨job, buf, hw, rfl⟩ := heffect
      rw [Stage, hw] at hstage
      exact h.of_stage hheld rfl rfl rfl rfl ⟨hconv, hstage⟩
  | handOver convUs => exact pipelined_handOver h hstep
  | push => exact pipelined_push h hstep
  | setPending => exact pipelined_setPending h hstep
  | release =>
      obtain ⟨i, hw, rfl⟩ := heffect
      rw [Stage, hw] at hstage
      exact h.of_stage hheld rfl rfl rfl rfl hstage
  | pop =>
      obtain ⟨e, rest, -, -, rfl⟩ := heffect
      exact h.of_others hheld (fun _ _ => rfl) rfl rfl rfl rfl rfl rfl
  | pageFlip answer nowUs =>
      obtain ⟨e, calls, tries, -, rfl⟩ := heffect
      exact h.of_others hheld (fun _ _ => rfl) (DrmScanout.nbufs_present ..) rfl rfl rfl rfl rfl
  | callAgain | stopPresent | endPresent =>
      obtain ⟨e, calls, -, rfl⟩ := heffect
      exact h.of_others hheld (fun _ _ => rfl) rfl rfl rfl rfl rfl rfl
  | event ts =>
      obtain rfl := heffect
      exact h.of_others hheld (fun _ _ => rfl) (DrmScanout.nbufs_flipHandler ..) rfl rfl rfl rfl rfl

end DecodeLoop

/-- **What a push describes**, in every run in DRM mode in which all conversions
succeed: the push numbered `i` is about frame `i`, in the entry and in
`g_vmeta`, exactly if the frame after it has the same presentation time and, for
the first, the frame is number 0 of segment 0 at time 0. -/
theorem push_describes_iff (nbufs : Nat) (hhi : nbufs ≤ vmcDrmMaxBufs) (ops : List DecodeOp)
    (s : DecodeLoop) (hconv : ∀ ev, .convAsync ev ∈ ops → ev = true)
    (hrun : Run.exec decodeStep (.init true nbufs) ops = some s) (i : Nat)
    (p : PresentEntry × Option Vmeta) (hp : s.pushes[i]? = some p) :
    ∃ f g, s.frames[i]? = some f ∧ s.frames[i + 1]? = some g ∧
      (DescribesFrame f p ↔ g.frame.ptsUs = f.frame.ptsUs ∧
        (i = 0 → f.frame.fidx = 0 ∧ f.frame.seg = 0 ∧ f.frame.ptsUs = 0)) := by
  have hops : ∀ op ∈ ops, DecodeLoop.ConvertsAll op := by
    intro op hop
    cases op with
    | convAsync ev => exact hconv ev hop
    | _ => trivial
  have h : s.Pipelined :=
    Run.exec_invariant DecodeLoop.Pipelined
      (fun _ _ _ h hok => DecodeLoop.pipelined_step h hok.2) (DecodeLoop.pipelined_init hhi)
      ((Run.along_true _ ops).and_mem hops) hrun
  obtain ⟨f, g, hf, hg, hpush⟩ := h.pushed i p hp
  exact ⟨f, g, hf, hg, hpush.describes_iff⟩

/-- Three frames at the given times. -/
def threeFrames (pts₀ pts₁ pts₂ : Int) : List DecodeOp :=
  startFrame (dashFrame 100 0 pts₀ 1) true ++ [.setPending] ++
    startFrame (dashFrame 200 1 pts₁ 1) true ++ [.handOver 7, .push, .setPending] ++
    startFrame (dashFrame 300 2 pts₂ 1) true ++ [.handOver 7, .push, .setPending]

/-- The second of three frames, with the third at the same time. -/
theorem push_describes_iff_same_pts :
    ∃ s p f, Run.exec decodeStep (.init true 4) (threeFrames 0 16667 16667) = some s ∧
      s.pushes[1]? = some p ∧ s.frames[1]? = some f ∧ DescribesFrame f p := by
  have hrun : (Run.exec decodeStep (.init true 4) (threeFrames 0 16667 16667)).map
      (fun s => (s.pushes.length, s.frames.map (·.frame.ptsUs))) =
      some (2, [0, 16667, 16667]) := by
    decide +kernel
  obtain ⟨s, hs, heq⟩ := Option.map_eq_some_iff.mp hrun
  obtain ⟨hlen, hpts⟩ := Prod.mk.inj heq
  have hlt : 1 < s.pushes.length := by
    rw [hlen]
    decide
  obtain ⟨f, g, hf, hg, hiff⟩ := push_describes_iff 4 (by decide) (threeFrames 0 16667 16667) s
    (by simp [threeFrames, startFrame]) hs 1 s.pushes[1] (List.getElem?_eq_getElem hlt)
  have hfpts : f.frame.ptsUs = 16667 := by
    have hget := congrArg (·[1]?) hpts
    simpa [hf] using hget
  have hgpts : g.frame.ptsUs = 16667 := by
    have hget := congrArg (·[2]?) hpts
    simpa [hg] using hget
  exact ⟨s, s.pushes[1], f, hs, List.getElem?_eq_getElem hlt, hf,
    hiff.mpr ⟨hgpts.trans hfpts.symm, by simp⟩⟩

/-- Every push is about the frame of its number, in every run in which all
conversions succeed. -/
def PushesDescribeFrames : Prop :=
  ∀ (nbufs : Nat) (ops : List DecodeOp) (s : DecodeLoop), 2 ≤ nbufs → nbufs ≤ vmcDrmMaxBufs →
    (∀ ev, .convAsync ev ∈ ops → ev = true) →
    Run.exec decodeStep (.init true nbufs) ops = some s →
    ∀ (i : Nat) (p : PresentEntry × Option Vmeta) (f : DrmFrame), s.pushes[i]? = some p →
      s.frames[i]? = some f → DescribesFrame f p

/-- At 60 frames a second, the second push carries the time of the third frame. -/
theorem pushesDescribeFrames_fails : ¬ PushesDescribeFrames := by
  intro h
  have hrun : (Run.exec decodeStep (.init true 4) (threeFrames 0 16667 33333)).map
      (fun s => (s.pushes[1]?.map (·.1.ptsUs), s.frames[1]?.map (·.frame.ptsUs))) =
      some (some 33333, some 16667) := by
    decide +kernel
  obtain ⟨s, hs, heq⟩ := Option.map_eq_some_iff.mp hrun
  obtain ⟨hpush, hframe⟩ := Prod.mk.inj heq
  obtain ⟨p, hp, hppts⟩ := Option.map_eq_some_iff.mp hpush
  obtain ⟨f, hf, hfpts⟩ := Option.map_eq_some_iff.mp hframe
  obtain ⟨hentry, -⟩ := h 4 (threeFrames 0 16667 33333) s (by decide) (by decide)
    (by simp [threeFrames, startFrame]) hs 1 p f hp hf
  rw [hentry, hfpts] at hppts
  norm_num at hppts

end Vmc
