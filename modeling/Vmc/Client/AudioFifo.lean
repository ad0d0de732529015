import Vmc.Core.Ringbuf
import Vmc.Transport.Protocol

/-!
# Vmc.Client.AudioFifo

The audio FIFO of the thin client: the reader writes decoded frames into it, the
receive loop writes the payloads of AUDIO datagrams, the reader resets it, and
the audio worker takes out blocks of 240 stereo frames, padded with silence when
the FIFO runs dry.  Every access is under `g_audio_mu`, so the FIFO sees one
whole operation after the other.

`AudioLog` is what has gone through the FIFO since the last reset.  A worker's
block stays on the boundaries of the four-byte frames exactly as long as the
FIFO does not run dry in the middle of one (`LevelOk`), which the datagrams may
bring about and the reader's writes may not.
-/

namespace Vmc

open Run

/-! ## the operations -/

/-- `VMC_AUDIO_FIFO_BYTES`. -/
def vmcAudioFifoBytes : UInt64 := 2097152

/-- `VMC_AUDIO_FRAME_BYTES`: the size of the worker's `pcm`. -/
def vmcAudioFrameBytes : UInt64 := 960

/-- The read of `audio_worker`: the block and the FIFO after it. -/
def audioWorkerRead (rb : VmcRingbuf) : Option (List UInt8 × VmcRingbuf) :=
  let avail := vmcRingbufUsed rb
  if avail ≥ vmcAudioFrameBytes then
    (vmcRingbufRead rb true vmcAudioFrameBytes).map fun (_, pcm, rb) => (pcm, rb)
  else if avail > 0 then
    (vmcRingbufRead rb true avail).map fun (n, pcm, rb) =>
      (pcm ++ List.replicate (vmcAudioFrameBytes - n).toNat 0, rb)
  else
    some (List.replicate vmcAudioFrameBytes.toNat 0, rb)

/-- `data_n`: the bytes of the block that come from the FIFO. -/
def audioDataN (rb : VmcRingbuf) : UInt64 :=
  if vmcRingbufUsed rb ≥ vmcAudioFrameBytes then vmcAudioFrameBytes else vmcRingbufUsed rb

/-- What has gone through the FIFO since the last reset: the bytes it has
accepted, how many of them the worker has taken, and whether it has found fewer
than a block and not a whole number of frames. -/
structure AudioLog where
  written : List UInt8 := []
  taken : Nat := 0
  cut : Bool := false
deriving DecidableEq, Repr

/-- The FIFO, with its log. -/
structure AudioFifo where
  rb : VmcRingbuf
  log : AudioLog := {}

/-- One operation under `g_audio_mu`. -/
inductive AudioOp where
  /-- `audio_fifo_write_raw`; `dash_audio_write_frame` passes a positive `int`. -/
  | writeRaw (pcm : List UInt8) (frames : Nat) (hint : frames < 2 ^ 31)
    (hpcm : frames * 4 ≤ pcm.length)
  /-- A datagram the receive loop gets; `out` is what its locals held before. -/
  | datagram (pkt : List UInt8) (out : DecodeOut)
  | reset
  /-- A block of the worker, after whatever it waited. -/
  | period

namespace AudioFifo

/-- `vmc_ringbuf_write` on the FIFO. -/
def put (s : AudioFifo) (data : List UInt8) (len : UInt64) : Option AudioFifo :=
  (vmcRingbufWrite s.rb data len).map fun (n, rb) =>
    { rb := rb, log := { s.log with written := s.log.written ++ data.take n.toNat } }

/-- The audio branch of the receive loop. -/
def receive (s : AudioFifo) (pkt : List UInt8) (out : DecodeOut) : Option AudioFifo :=
  match vmcProtoDecode pkt out with
  | (.ok, d) => if d.h.stream = streamAudio then s.put d.payload d.h.payloadLen.toUInt64 else some s
  | _ => some s

/-- The worker takes a block. -/
def takeBlock (s : AudioFifo) : Option AudioFifo :=
  (audioWorkerRead s.rb).map fun (_, rb) =>
    { rb := rb
      log := { s.log with
        taken := s.log.taken + (audioDataN s.rb).toNat
        cut := s.log.cut ||
          decide (vmcRingbufUsed s.rb < vmcAudioFrameBytes ∧ vmcRingbufUsed s.rb % 4 ≠ 0) } }

def step (s : AudioFifo) : AudioOp → Option AudioFifo
  | .writeRaw pcm frames _ _ => s.put pcm (UInt64.ofNat frames * 2 * 2)
  | .datagram pkt out => s.receive pkt out
  | .reset => some { rb := vmcRingbufReset s.rb }
  | .period => s.takeBlock

/-- `vmc_ringbuf_init` of `g_audio_rb`. -/
def init (storage : List UInt8) : Except Status AudioFifo :=
  (vmcRingbufInit storage vmcAudioFifoBytes).map fun rb => { rb := rb }

/-- A block of the worker is on frame boundaries: the byte at the start of each
of its frames is one before which a multiple of four bytes was written since
the last reset. -/
def OnFrames (s : AudioFifo) : AudioOp → Prop
  | .period =>
      ∀ pcm rb', audioWorkerRead s.rb = some (pcm, rb') →
        ∀ o, o < (audioDataN s.rb).toNat → o % 4 = 0 →
          pcm[o]? = s.log.written[s.log.taken + o]? ∧ (s.log.taken + o) % 4 = 0
  | .writeRaw _ _ _ _ => True
  | .datagram _ _ => True
  | .reset => True

/-- The worker finds bytes only as long as, since the last reset, it has not
found fewer than a block and not a whole number of frames. -/
def LevelOk (s : AudioFifo) : AudioOp → Prop
  | .period => s.log.cut = true → vmcRingbufUsed s.rb = 0
  | .writeRaw _ _ _ _ => True
  | .datagram _ _ => True
  | .reset => True

end AudioFifo

/-! ## the log -/

namespace AudioLog

/-- The bytes in the FIFO. -/
def queue (g : AudioLog) : List UInt8 := g.written.drop g.taken

/-- A write of the `len` bytes at `data`. -/
def put (g : AudioLog) (data : List UInt8) (len : Nat) : AudioLog :=
  { g with written := g.written ++ data.take (min len (vmcAudioFifoBytes.toNat - g.queue.length)) }

/-- The payload an AUDIO datagram brings. -/
def receive (g : AudioLog) (pkt : List UInt8) (out : DecodeOut) : AudioLog :=
  match vmcProtoDecode pkt out with
  | (.ok, d) => if d.h.stream = streamAudio then g.put d.payload d.h.payloadLen.toNat else g
  | _ => g

/-- What one operation does to the log. -/
def after (g : AudioLog) : AudioOp → AudioLog
  | .writeRaw pcm frames _ _ => g.put pcm (frames * 4)
  | .datagram pkt out => g.receive pkt out
  | .reset => {}
  | .period =>
      { g with
        taken := g.taken + min 960 g.queue.length
        cut := g.cut || decide (g.queue.length < 960 ∧ g.queue.length % 4 ≠ 0) }

end AudioLog

/-- What a datagram comes to: its payload is written, or nothing happens. -/
theorem audioReceive_cases (pkt : List UInt8) (out : DecodeOut) :
    (WellFormed pkt ∧ vmcProtoDecode pkt out = (.ok, ⟨readHeader pkt, payloadOf pkt⟩) ∧
      (readHeader pkt).stream = streamAudio ∧
      (∀ s, AudioFifo.receive s pkt out =
        s.put (payloadOf pkt) (readHeader pkt).payloadLen.toUInt64) ∧
      ∀ g, AudioLog.receive g pkt out = g.put (payloadOf pkt) (readHeader pkt).payloadLen.toNat) ∨
    ((∀ s, AudioFifo.receive s pkt out = some s) ∧ ∀ g, AudioLog.receive g pkt out = g) := by
  unfold AudioFifo.receive AudioLog.receive
  obtain ⟨hw, heq⟩ | ⟨-, st, hst, heq⟩ := decode_eq pkt out
  · rw [heq]
    by_cases haudio : (readHeader pkt).stream = streamAudio
    · exact .inl ⟨hw, rfl, haudio, fun _ => if_pos haudio, fun _ => if_pos haudio⟩
    · exact .inr ⟨fun _ => if_neg haudio, fun _ => if_neg haudio⟩
  · rw [heq]
    cases st with
    | ok => contradiction
    | _ => exact .inr ⟨fun _ => rfl, fun _ => rfl⟩

/-! ## the FIFO follows its log -/

theorem toNat_dataN {rb : VmcRingbuf} {q : List UInt8} (h : rb.Holds q) :
    (audioDataN rb).toNat = min 960 q.length := by
  have hcount : (vmcRingbufUsed rb).toNat = q.length := h.count
  have h960 : vmcAudioFrameBytes.toNat = 960 := rfl
  rw [audioDataN]
  split
  · next hge =>
      rw [ge_iff_le, UInt64.le_iff_toNat_le] at hge
      omega
  · next hge =>
      rw [ge_iff_le, UInt64.le_iff_toNat_le] at hge
      omega

/-- The worker's block is the front of the queue, padded with silence. -/
theorem workerRead_eq {rb : VmcRingbuf} {q : List UInt8} (h : rb.Holds q) :
    ∃ rb', audioWorkerRead rb =
        some (q.take 960 ++ List.replicate (960 - q.length) 0, rb') ∧
      rb'.data.length = rb.data.length ∧ rb'.Holds (q.drop 960) := by
  have hcount : (vmcRingbufUsed rb).toNat = q.length := h.count
  have h960 : vmcAudioFrameBytes.toNat = 960 := rfl
  rw [audioWorkerRead]
  by_cases hfull : vmcRingbufUsed rb ≥ vmcAudioFrameBytes
  · obtain ⟨n, rb', heq, -, hlen, hrep⟩ := read_refines h true vmcAudioFrameBytes
    rw [ge_iff_le, UInt64.le_iff_toNat_le] at hfull
    have hpad : 960 - q.length = 0 := by omega
    refine ⟨rb', ?_, hlen, hrep⟩
    rw [if_pos (UInt64.le_iff_toNat_le.mpr hfull), heq, hpad]
    simp [h960]
  · have hlt : q.length < 960 := by
      rw [ge_iff_le, UInt64.le_iff_toNat_le] at hfull
      omega
    have htake : q.take 960 = q := List.take_of_length_le (by omega)
    have hdrop : q.drop 960 = [] := List.drop_of_length_le (by omega)
    rw [if_neg hfull, htake, hdrop]
    by_cases hany : vmcRingbufUsed rb > 0
    · obtain ⟨n, rb', heq, hn, hlen, hrep⟩ := read_refines h true (vmcRingbufUsed rb)
      rw [hcount, List.take_length] at heq
      rw [hcount, List.drop_length] at hrep
      have hpad : (vmcAudioFrameBytes - n).toNat = 960 - q.length := by
        rw [UInt64.toNat_sub_of_le _ _ (UInt64.le_iff_toNat_le.mpr (by omega))]
        omega
      refine ⟨rb', ?_, hlen, hrep⟩
      rw [if_pos hany, heq]
      simp [hpad]
    · have hq : q = [] := by
        rw [gt_iff_lt, UInt64.lt_iff_toNat_lt, hcount] at hany
        exact List.eq_nil_of_length_eq_zero (by simpa using hany)
      subst hq
      exact ⟨rb, by rw [if_neg hany]; rfl, rfl, h⟩

namespace AudioFifo

/-- The ring buffer holds what the log says is in the FIFO. -/
structure Sound (s : AudioFifo) : Prop where
  holds : s.rb.Holds s.log.queue
  size : s.rb.data.length = vmcAudioFifoBytes.toNat
  taken : s.log.taken ≤ s.log.written.length

theorem sound_init {storage : List UInt8} (hsto : storage.length = vmcAudioFifoBytes.toNat) :
    ∃ s, init storage = .ok s ∧ s.Sound ∧ s.log = {} := by
  obtain ⟨rb, hinit, hlen, hrep⟩ := @holds_init storage vmcAudioFifoBytes 21 rfl hsto
  exact ⟨{ rb := rb }, by rw [init, hinit]; rfl, ⟨hrep, hlen, Nat.zero_le _⟩, rfl⟩

variable {s : AudioFifo}

theorem Sound.put (h : s.Sound) {data : List UInt8} {len : UInt64}
    (hdata : len.toNat ≤ data.length) :
    ∃ s', s.put data len = some s' ∧ s'.Sound ∧ s'.log = s.log.put data len.toNat := by
  obtain ⟨n, rb', heq, hn, hlen, hrep⟩ := write_refines h.holds hdata
  rw [h.size] at hn hrep
  have htake : (data.take len.toNat).take (vmcAudioFifoBytes.toNat - s.log.queue.length) =
      data.take n.toNat := by
    rw [List.take_take, hn, Nat.min_comm]
  rw [htake] at hrep
  have htaken := h.taken
  refine ⟨_, by rw [AudioFifo.put, heq]; rfl, ⟨?_, hlen.trans h.size, ?_⟩, ?_⟩
  · rw [AudioLog.queue] at hrep
    simp only [AudioLog.queue]
    rw [List.drop_append_of_le_length htaken]
    exact hrep
  · simp only [List.length_append]
    omega
  · rw [AudioLog.put, ← hn]

theorem Sound.receive (h : s.Sound) (pkt : List UInt8) (out : DecodeOut) :
    ∃ s', s.receive pkt out = some s' ∧ s'.Sound ∧ s'.log = s.log.receive pkt out := by
  obtain ⟨hw, -, -, hs, hg⟩ | ⟨hs, hg⟩ := audioReceive_cases pkt out
  · rw [hs, hg]
    exact h.put (by rw [length_payloadOf hw]; simp)
  · rw [hs, hg]
    exact ⟨s, rfl, h, rfl⟩

theorem Sound.takeBlock (h : s.Sound) :
    ∃ s', s.takeBlock = some s' ∧ s'.Sound ∧ s'.log = s.log.after .period := by
  obtain ⟨rb', heq, hlen, hrep⟩ := workerRead_eq h.holds
  have hcount : (vmcRingbufUsed s.rb).toNat = s.log.queue.length := h.holds.count
  have hqueue : s.log.queue.length = s.log.written.length - s.log.taken := List.length_drop
  have htaken := h.taken
  have hdata := toNat_dataN h.holds
  have hcut : (vmcRingbufUsed s.rb < vmcAudioFrameBytes ∧ vmcRingbufUsed s.rb % 4 ≠ 0) ↔
      (s.log.queue.length < 960 ∧ s.log.queue.length % 4 ≠ 0) := by
    rw [UInt64.lt_iff_toNat_lt, ne_eq, ← UInt64.toNat_inj, UInt64.toNat_mod, hcount]
    exact Iff.rfl
  refine ⟨_, by rw [AudioFifo.takeBlock, heq]; rfl, ⟨?_, hlen.trans h.size, ?_⟩, ?_⟩
  · have hdrop : s.log.queue.drop 960 =
        s.log.written.drop (s.log.taken + (audioDataN s.rb).toNat) := by
      rw [hdata, ← List.drop_drop, List.drop_eq_drop_min]
      rfl
    rw [hdrop] at hrep
    exact hrep
  · simp only [hdata]
    omega
  · simp only [AudioLog.after, hdata, decide_eq_decide.mpr hcut]

/-- **One operation** stays inside the storage and does to the FIFO what the log
says. -/
theorem Sound.step (h : s.Sound) (op : AudioOp) :
    ∃ s', s.step op = some s' ∧ s'.Sound ∧ s'.log = s.log.after op := by
  cases op with
  | writeRaw pcm frames hint hpcm =>
      have hlen : (UInt64.ofNat frames * 2 * 2).toNat = frames * 4 := by
        simp only [UInt64.toNat_mul, UInt64.toNat_ofNat', UInt64.reduceToNat]
        omega
      rw [AudioFifo.step, AudioLog.after, ← hlen]
      exact h.put (by rw [hlen]; exact hpcm)
  | datagram pkt out => exact h.receive pkt out
  | reset =>
      obtain ⟨rb', heq, hrep, hlen⟩ := apply_refines h.holds h.size .reset
      cases heq
      exact ⟨_, rfl, ⟨hrep, hlen, Nat.zero_le _⟩, rfl⟩
  | period => exact h.takeBlock

theorem Sound.step_eq (h : s.Sound) {op : AudioOp} {t : AudioFifo} (ht : s.step op = some t) :
    t.Sound ∧ t.log = s.log.after op := by
  obtain ⟨s', hs', hsound, hlog⟩ := h.step op
  obtain rfl := Option.some.inj (hs'.symm.trans ht)
  exact ⟨hsound, hlog⟩

/-- **A run** stays inside the storage, and its log is that of the operations. -/
theorem Sound.exec (h : s.Sound) (ops : List AudioOp) :
    ∃ s', exec AudioFifo.step s ops = some s' ∧ s'.Sound ∧
      s'.log = ops.foldl AudioLog.after s.log := by
  induction ops generalizing s with
  | nil => exact ⟨s, rfl, h, rfl⟩
  | cons op ops ih =>
      obtain ⟨t, ht, hsound, hlog⟩ := h.step op
      obtain ⟨s', hs', hsound', hlog'⟩ := ih hsound
      refine ⟨s', (exec_cons_eq_some _).mpr ⟨t, ht, hs'⟩, hsound', ?_⟩
      rw [hlog', hlog, List.foldl_cons]

/-! ## frame boundaries -/

/-- The invariant of a run whose blocks are on frame boundaries: `cut` says
whether the worker has taken a whole number of frames. -/
structure Marked (s : AudioFifo) : Prop where
  sound : s.Sound
  cut : s.log.cut = false ↔ s.log.taken % 4 = 0

theorem Sound.onFrames_iff (h : s.Sound) :
    s.OnFrames .period ↔ (s.log.queue ≠ [] → s.log.taken % 4 = 0) := by
  obtain ⟨rb', heq, -, -⟩ := workerRead_eq h.holds
  rw [OnFrames]
  constructor
  · intro hon hne
    have hpos : 0 < (audioDataN s.rb).toNat := by
      rw [toNat_dataN h.holds]
      have := List.length_pos_of_ne_nil hne
      omega
    exact (hon _ _ heq 0 hpos rfl).2
  · intro hfour pcm rb'' hread o ho hmod
    obtain ⟨rfl, rfl⟩ := Prod.mk.inj (Option.some.inj (heq.symm.trans hread))
    rw [toNat_dataN h.holds] at ho
    have hne : s.log.queue ≠ [] := List.ne_nil_of_length_pos (by omega)
    have htaken := hfour hne
    refine ⟨?_, by omega⟩
    rw [List.getElem?_append_left (by rw [List.length_take]; exact ho),
      List.getElem?_take_of_lt (by omega), AudioLog.queue, List.getElem?_drop]

theorem Sound.levelOk_iff (h : s.Sound) :
    s.LevelOk .period ↔ (s.log.queue ≠ [] → s.log.cut = false) := by
  have hcount : (vmcRingbufUsed s.rb).toNat = s.log.queue.length := h.holds.count
  have hempty : vmcRingbufUsed s.rb = 0 ↔ s.log.queue = [] := by
    rw [← UInt64.toNat_inj, hcount]
    exact List.length_eq_zero_iff
  rw [LevelOk, hempty, ← not_imp_not, Bool.not_eq_true]

theorem Marked.ok_iff (h : s.Marked) (op : AudioOp) : s.OnFrames op ↔ s.LevelOk op := by
  cases op with
  | period => rw [h.sound.onFrames_iff, h.sound.levelOk_iff, h.cut]
  | _ => exact Iff.rfl

theorem Marked.step (h : s.Marked) {op : AudioOp} (hon : s.OnFrames op) {t : AudioFifo}
    (ht : s.step op = some t) : t.Marked := by
  obtain ⟨hsound, hlog⟩ := h.sound.step_eq ht
  refine ⟨hsound, ?_⟩
  have hcut := h.cut
  cases op with
  | writeRaw pcm frames hint hpcm =>
      rw [hlog]
      exact hcut
  | datagram pkt out =>
      rw [hlog, AudioLog.after]
      obtain ⟨-, -, -, -, hg⟩ | ⟨-, hg⟩ := audioReceive_cases pkt out
      · rw [hg]
        exact hcut
      · rw [hg]
        exact hcut
  | reset =>
      rw [hlog]
      exact ⟨fun _ => rfl, fun _ => rfl⟩
  | period =>
      have hfour := h.sound.onFrames_iff.mp hon
      rw [hlog]
      simp only [AudioLog.after, Bool.or_eq_false_iff, decide_eq_false_iff_not]
      rw [hcut]
      by_cases hq : s.log.queue = []
      · simp [hq]
      · have htaken := hfour hq
        omega

end AudioFifo

/-! ## payloads of whole frames -/

/-- An AUDIO payload is a whole number of frames. -/
def AudioOp.WholeFrames : AudioOp → Prop
  | .datagram pkt out =>
      ∀ d, vmcProtoDecode pkt out = (.ok, d) → d.h.stream = streamAudio →
        d.h.payloadLen.toNat % 4 = 0
  | .writeRaw _ _ _ _ => True
  | .reset => True
  | .period => True

theorem AudioOp.wholeFrames_of_header {pkt : List UInt8} (out : DecodeOut)
    (h : (readHeader pkt).payloadLen.toNat % 4 = 0) : (AudioOp.datagram pkt out).WholeFrames := by
  intro d hd _
  obtain ⟨-, rfl⟩ := decode_eq_ok_iff.mp hd
  exact h

/-- Whole frames went in and came out. -/
structure AudioLog.Whole (g : AudioLog) : Prop where
  written : g.written.length % 4 = 0
  taken : g.taken % 4 = 0
  cut : g.cut = false

namespace AudioLog.Whole

variable {g : AudioLog}

theorem queue (h : g.Whole) : g.queue.length % 4 = 0 := by
  have hw := h.written
  have ht := h.taken
  rw [AudioLog.queue, List.length_drop]
  omega

/-- The free space is whole frames too, so a write that is clipped ends on a
boundary. -/
theorem put (h : g.Whole) {data : List UInt8} {len : Nat} (hlen : len % 4 = 0)
    (hdata : len ≤ data.length) : (g.put data len).Whole := by
  have hw := h.written
  have hq := h.queue
  have hcap : vmcAudioFifoBytes.toNat = 2097152 := rfl
  refine ⟨?_, h.taken, h.cut⟩
  simp only [AudioLog.put, List.length_append, List.length_take, hcap]
  omega

theorem receive (h : g.Whole) {pkt : List UInt8} {out : DecodeOut}
    (hop : (AudioOp.datagram pkt out).WholeFrames) : (g.receive pkt out).Whole := by
  obtain ⟨hw, heq, haudio, -, hg⟩ | ⟨-, hg⟩ := audioReceive_cases pkt out
  · rw [hg]
    exact h.put (hop _ heq haudio) (by rw [length_payloadOf hw])
  · rw [hg]
    exact h

theorem after (h : g.Whole) {op : AudioOp} (hop : op.WholeFrames) : (g.after op).Whole := by
  cases op with
  | writeRaw pcm frames hint hpcm => exact h.put (by omega) hpcm
  | datagram pkt out => exact h.receive hop
  | reset => exact ⟨rfl, rfl, rfl⟩
  | period =>
      have hq := h.queue
      have ht := h.taken
      refine ⟨h.written, ?_, ?_⟩
      · simp only [AudioLog.after]
        omega
      · simp [AudioLog.after, h.cut, hq]

end AudioLog.Whole

/-- Payloads of whole frames keep the worker on frame boundaries. -/
theorem AudioFifo.Sound.levelOk_of_wholeFrames {s : AudioFifo} (h : s.Sound) (hw : s.log.Whole)
    {ops : List AudioOp} (hops : ∀ op ∈ ops, op.WholeFrames) :
    Along AudioFifo.step AudioFifo.LevelOk s ops := by
  induction ops generalizing s with
  | nil => trivial
  | cons op ops ih =>
      refine ⟨?_, fun t ht => ?_⟩
      · cases op with
        | period => exact h.levelOk_iff.mpr fun _ => hw.cut
        | _ => trivial
      · obtain ⟨hsound, hlog⟩ := h.step_eq ht
        refine ih hsound ?_ fun op' hop' => hops op' (by simp [hop'])
        rw [hlog]
        exact hw.after (hops op (by simp))

/-! ## blocks of a run -/

open AudioFifo

/-- **Frame boundaries**: whatever operations follow one another, the FIFO stays
inside its storage, and the worker's blocks are all on frame boundaries exactly
if it never finds bytes after it has found a part of a frame. -/
theorem audio_on_frames_iff {storage : List UInt8}
    (hsto : storage.length = vmcAudioFifoBytes.toNat) (ops : List AudioOp) :
    ∃ s, AudioFifo.init storage = .ok s ∧ (∃ s', exec AudioFifo.step s ops = some s') ∧
      (Along AudioFifo.step OnFrames s ops ↔ Along AudioFifo.step LevelOk s ops) := by
  obtain ⟨s, hinit, hsound, hlog⟩ := sound_init hsto
  obtain ⟨s', hs', -⟩ := hsound.exec ops
  have hmarked : s.Marked := ⟨hsound, by rw [hlog]; exact ⟨fun _ => rfl, fun _ => rfl⟩⟩
  refine ⟨s, hinit, ⟨s', hs'⟩, ?_⟩
  exact along_congr Marked (fun s op h => h.ok_iff op) (fun s op t h hon ht => h.step hon ht)
    hmarked

/-- An AUDIO datagram with the payload `p`, and the locals of the receive loop
before it. -/
def audioDatagram (p : List UInt8) : AudioOp :=
  .datagram (datagram ⟨vmcProtoMagic, vmcProtoVersion, 0, streamAudio, 0,
    UInt16.ofNat p.length, 7, 0, 0⟩ p) ⟨sampleHeader, []⟩

/-- Two frames in a datagram, a block, one more frame, a block. -/
def wholeFrameRun : List AudioOp :=
  [audioDatagram [1, 2, 3, 4, 5, 6, 7, 8], .period, audioDatagram [9, 10, 11, 12], .period]

theorem audio_on_frames_iff_wholeFrames :
    ∃ s, AudioFifo.init (List.replicate 2097152 0) = .ok s ∧
      Along AudioFifo.step OnFrames s wholeFrameRun := by
  obtain ⟨s, hinit, -, hiff⟩ :=
    @audio_on_frames_iff (List.replicate 2097152 0) List.length_replicate wholeFrameRun
  obtain ⟨s', hinit', hsound, hlog⟩ := @sound_init (List.replicate 2097152 0) List.length_replicate
  obtain rfl := Except.ok.inj (hinit.symm.trans hinit')
  have hwhole : s.log.Whole := by
    rw [hlog]
    exact ⟨rfl, rfl, rfl⟩
  refine ⟨s, hinit, hiff.mpr (hsound.levelOk_of_wholeFrames hwhole fun op hop => ?_)⟩
  simp only [wholeFrameRun, List.mem_cons, List.not_mem_nil, or_false] at hop
  rcases hop with rfl | rfl | rfl | rfl
  · exact AudioOp.wholeFrames_of_header _ (by decide +kernel)
  · trivial
  · exact AudioOp.wholeFrames_of_header _ (by decide +kernel)
  · trivial

/-- The worker's blocks are always on frame boundaries. -/
def AudioOnFrames : Prop :=
  ∀ storage : List UInt8, storage.length = vmcAudioFifoBytes.toNat → ∀ (ops : List AudioOp) s,
    AudioFifo.init storage = .ok s → Along AudioFifo.step OnFrames s ops

/-- A datagram with a frame and a half, a block, and the same datagram again. -/
def halfFrameRun : List AudioOp :=
  [audioDatagram [1, 2, 3, 4, 5, 6], .period, audioDatagram [1, 2, 3, 4, 5, 6]]

/-- The second block starts in the middle of a frame. -/
theorem audioOnFrames_fails : ¬ AudioOnFrames := by
  intro h
  obtain ⟨s, hinit, hsound, hlog⟩ := @sound_init (List.replicate 2097152 0) List.length_replicate
  obtain ⟨t, ht, htsound, htlog⟩ := hsound.exec halfFrameRun
  have hblock : t.OnFrames .period :=
    ((along_append.mp (h _ List.length_replicate (halfFrameRun ++ [.period]) s hinit)).2 t ht).1
  have hlog' : t.log = ⟨[1, 2, 3, 4, 5, 6, 1, 2, 3, 4, 5, 6], 6, true⟩ := by
    rw [htlog, hlog]
    decide +kernel
  have hfour := htsound.onFrames_iff.mp hblock
  rw [hlog'] at hfour
  exact absurd (hfour (by decide)) (by decide)

end Vmc
