import Vmc.Lib.CInt
import Vmc.Lib.Run

/-!
# Vmc.Client.SyncServo

The A/V servo of the present worker (`apps/thinclient/main.c`): after each flip
the shift of the gate is moved by an eighth of the measured offset, unless the
offset is implausible, and clamped.

The gate subtracts the shift from the frame's pts, so a larger shift opens it
earlier and the servo has to subtract as well.  Where the scanout follows the
gate by a constant latency the loop closes on itself: the offset of a frame is
the lead minus that latency, plus the shift.
-/

namespace Vmc

open CInt Run

/-! ## the servo -/

/-- The update of `s_sync_shift_us` from a measured offset. -/
def servoUpdate (shift off : Int) : Int :=
  if -500000 < off ∧ off < 500000 then
    let moved := shift - off.tdiv 8
    let raised := if moved < -200000 then -200000 else moved
    if raised > 200000 then 200000 else raised
  else shift

/-- `gate_pts`: the audio content position at which the gate of a frame opens. -/
def gatePts (pts lead shift : Int) : Int := pts - lead - shift

/-- A presentation whose frames are scanned out a constant latency after their
gate opens. -/
structure Presentation where
  lead : Int
  latency : Int
  pts : Nat → Int

namespace Presentation

variable (p : Presentation)

/-- `apos`: the audio content position at the scanout of a frame. -/
def apos (shift : Int) (n : Nat) : Int := gatePts (p.pts n) p.lead shift + p.latency

/-- `off`: the offset measured at a frame. -/
def off (shift : Int) (n : Nat) : Int := p.pts n - p.apos shift n

/-- `s_sync_shift_us` before frame `n`. -/
def shift (start : Int) : Nat → Int
  | 0 => start
  | n + 1 => servoUpdate (shift start n) (p.off (shift start n) n)

/-- What a constant lead cannot absorb. -/
def bias : Int := p.lead - p.latency

/-- The loop closes: the gate's shift comes back in the offset. -/
theorem off_eq (shift : Int) (n : Nat) : p.off shift n = p.bias + shift := by
  unfold off apos gatePts bias
  ring

theorem shift_succ (start : Int) (n : Nat) :
    p.shift start (n + 1) = servoUpdate (p.shift start n) (p.bias + p.shift start n) := by
  rw [shift, p.off_eq]

end Presentation

/-! ## one update -/

/-- The shift never leaves its clamp. -/
theorem servoUpdate_mem {shift : Int} (h : |shift| ≤ 200000) (off : Int) :
    |servoUpdate shift off| ≤ 200000 := by
  rw [abs_le] at h ⊢
  unfold servoUpdate
  dsimp only
  split_ifs <;> omega

/-- With a bias inside the clamp the update is never clamped: the target lies on
the same side of it as the shift. -/
theorem servoUpdate_of_bias_le {c shift : Int} (hc : |c| ≤ 200000) (h : |shift| ≤ 200000) :
    servoUpdate shift (c + shift) = shift - (c + shift).tdiv 8 := by
  rw [abs_le] at hc h
  have hdiv := tdiv_eq_ite (c + shift) 8
  unfold servoUpdate
  dsimp only
  split_ifs at hdiv ⊢ <;> omega

/-- An offset less than eight is left alone. -/
theorem servoUpdate_of_small {shift off : Int} (h : |shift| ≤ 200000) (hoff : |off| < 8) :
    servoUpdate shift off = shift := by
  rw [abs_le] at h
  rw [abs_lt] at hoff
  have hdiv := tdiv_eq_ite off 8
  unfold servoUpdate
  dsimp only
  split_ifs at hdiv ⊢ <;> omega

/-- Taking away an eighth does not cross zero. -/
theorem sign_sub_tdiv (x : Int) : (x - x.tdiv 8).sign = x.sign := by
  have hdiv := tdiv_eq_ite x 8
  rcases lt_trichotomy x 0 with hx | rfl | hx
  · rw [if_neg (by omega)] at hdiv
    rw [Int.sign_eq_neg_one_of_neg hx, Int.sign_eq_neg_one_of_neg (by omega)]
  · rfl
  · rw [if_pos (by omega)] at hdiv
    rw [Int.sign_eq_one_of_pos hx, Int.sign_eq_one_of_pos (by omega)]

/-- Taking away an eighth of at least eight brings nearer to zero. -/
theorem abs_sub_tdiv_lt {x : Int} (hx : 8 ≤ |x|) : |x - x.tdiv 8| < |x| := by
  have hdiv := tdiv_eq_ite x 8
  rcases lt_or_ge x 0 with hneg | hpos
  · rw [if_neg (by omega)] at hdiv
    rw [abs_of_neg hneg] at hx ⊢
    rw [abs_of_neg (by omega)]
    omega
  · rw [if_pos hpos] at hdiv
    rw [abs_of_nonneg hpos] at hx ⊢
    rw [abs_of_nonneg (by omega)]
    omega

/-- With a bias beyond the clamp an accepted offset drives the shift to the
clamp, and keeps being accepted. -/
theorem servoUpdate_of_bias_ge {c shift : Int} (hc : 200008 ≤ c) (h : |shift| ≤ 200000)
    (hoff : c + shift < 500000) :
    servoUpdate shift (c + shift) ≤ shift ∧
      (shift ≠ -200000 → servoUpdate shift (c + shift) < shift) := by
  rw [abs_le] at h
  have hdiv := tdiv_eq_ite (c + shift) 8
  unfold servoUpdate
  dsimp only
  split_ifs at hdiv ⊢ <;> omega

/-- The servo is odd: everything may be mirrored. -/
theorem servoUpdate_neg (shift off : Int) :
    servoUpdate (-shift) (-off) = -servoUpdate shift off := by
  unfold servoUpdate
  rw [Int.neg_tdiv]
  dsimp only
  split_ifs <;> omega

/-! ## all the frames -/

namespace Presentation

variable (p : Presentation) {start : Int}

/-- The shift is inside its clamp at every frame. -/
theorem shift_mem (hstart : |start| ≤ 200000) (n : Nat) : |p.shift start n| ≤ 200000 := by
  induction n with
  | zero => exact hstart
  | succ n ih =>
    rw [shift_succ]
    exact servoUpdate_mem ih _

/-- A bias inside the clamp: an eighth of the offset goes at every frame. -/
theorem off_succ (hc : |p.bias| ≤ 200000) (hstart : |start| ≤ 200000) (n : Nat) :
    p.bias + p.shift start (n + 1) =
      (p.bias + p.shift start n) - (p.bias + p.shift start n).tdiv 8 := by
  rw [shift_succ, servoUpdate_of_bias_le hc (p.shift_mem hstart n)]
  ring

/-- A bias inside the clamp: the offset ends below eight and stays there. -/
theorem eventually_off_small (hc : |p.bias| ≤ 200000) (hstart : |start| ≤ 200000) :
    ∃ n, ∀ k, n ≤ k → |p.bias + p.shift start k| < 8 := by
  refine eventually_of_rank (x := p.shift start) (P := fun shift => |p.bias + shift| < 8)
    (fun shift => (p.bias + shift).natAbs) (fun n hn => ?_) (fun n hn => ?_)
  · have hdrop := abs_sub_tdiv_lt (not_lt.mp hn)
    rw [← p.off_succ hc hstart n] at hdrop
    rw [Int.abs_eq_natAbs, Int.abs_eq_natAbs] at hdrop
    exact_mod_cast hdrop
  · rw [shift_succ, servoUpdate_of_small (p.shift_mem hstart n) hn]
    exact hn

/-- A bias beyond the clamp: an accepted offset stays accepted. -/
theorem off_lt_of_bias_ge (hc : 200008 ≤ p.bias) (hstart : |start| ≤ 200000)
    (hoff : p.bias + start < 500000) (n : Nat) : p.bias + p.shift start n < 500000 := by
  induction n with
  | zero => exact hoff
  | succ n ih =>
    have hstep := (servoUpdate_of_bias_ge hc (p.shift_mem hstart n) ih).1
    rw [shift_succ]
    omega

/-- A bias beyond the clamp: the shift comes to rest at the clamp. -/
theorem eventually_clamped (hc : 200008 ≤ p.bias) (hstart : |start| ≤ 200000)
    (hoff : p.bias + start < 500000) : ∃ n, ∀ k, n ≤ k → p.shift start k = -200000 := by
  have hstep := fun n => servoUpdate_of_bias_ge hc (p.shift_mem hstart n)
    (p.off_lt_of_bias_ge hc hstart hoff n)
  have hmem := fun n => abs_le.mp (p.shift_mem hstart n)
  refine eventually_of_rank (x := p.shift start) (P := fun shift => shift = -200000)
    (fun shift => (shift + 200000).toNat) (fun n hn => ?_) (fun n hn => ?_)
  · have hlt := (hstep n).2 hn
    have hlow := hmem (n + 1)
    rw [shift_succ] at hlow ⊢
    omega
  · have hle := (hstep n).1
    have hlow := hmem (n + 1)
    rw [shift_succ] at hlow ⊢
    omega

/-- The presentation with every time negated. -/
def mirror : Presentation := ⟨-p.lead, -p.latency, fun n => -p.pts n⟩

theorem bias_mirror : p.mirror.bias = -p.bias := by
  unfold bias mirror
  ring

theorem shift_mirror (start : Int) (n : Nat) : p.mirror.shift (-start) n = -p.shift start n := by
  induction n with
  | zero => rfl
  | succ n ih =>
    rw [shift_succ, shift_succ, ih, bias_mirror, ← servoUpdate_neg]
    congr 1
    ring

/-- The servo, for any lead, any constant latency and any frames.  The offset is
the bias plus the shift.  With a bias inside the clamp the shift stays inside it,
the offset never changes sign, is smaller in size after every frame until it is
less than eight, gets there and stays.  With a bias beyond the clamp and an
accepted offset the shift comes to rest at the end of the clamp nearest to minus
the bias. -/
theorem servo_converges (start : Int) (hstart : |start| ≤ 200000) :
    (∀ n, p.off (p.shift start n) n = p.bias + p.shift start n) ∧
    (|p.bias| ≤ 200000 →
      (∀ n, |p.shift start n| ≤ 200000 ∧
        (p.off (p.shift start (n + 1)) (n + 1)).sign = (p.off (p.shift start n) n).sign ∧
        (8 ≤ |p.off (p.shift start n) n| →
          |p.off (p.shift start (n + 1)) (n + 1)| < |p.off (p.shift start n) n|)) ∧
      ∃ n, ∀ k, n ≤ k → |p.off (p.shift start k) k| < 8) ∧
    (200008 ≤ |p.bias| → |p.off start 0| < 500000 →
      ∃ n, ∀ k, n ≤ k → p.shift start k = max (-200000) (min 200000 (-p.bias))) := by
  simp only [p.off_eq]
  refine ⟨fun _ => trivial, fun hc => ⟨fun n => ⟨p.shift_mem hstart n, ?_, fun hbig => ?_⟩, ?_⟩,
    fun hc hoff => ?_⟩
  · rw [p.off_succ hc hstart, sign_sub_tdiv]
  · rw [p.off_succ hc hstart]
    exact abs_sub_tdiv_lt hbig
  · exact p.eventually_off_small hc hstart
  · rw [abs_lt] at hoff
    rcases le_abs.mp hc with hpos | hneg
    · obtain ⟨n, hn⟩ := p.eventually_clamped hpos hstart hoff.2
      exact ⟨n, fun k hk => by rw [hn k hk]; omega⟩
    · have hmirrored : |-start| ≤ 200000 := by rwa [abs_neg]
      obtain ⟨n, hn⟩ := p.mirror.eventually_clamped (by rw [bias_mirror]; exact hneg) hmirrored
        (by rw [bias_mirror]; omega)
      refine ⟨n, fun k hk => ?_⟩
      have hk := hn k hk
      rw [shift_mirror] at hk
      omega

end Presentation

/-- A lead of 33 ms over a latency of 2.5 ms, 30 frames a second: the offset is
closed from a fresh servo.  Over a latency of 433 ms the shift ends at its clamp. -/
theorem servo_converges_30fps :
    (∃ n, ∀ k, n ≤ k → |Presentation.off ⟨33334, 2500, fun i => 33333 * i⟩
      (Presentation.shift ⟨33334, 2500, fun i => 33333 * i⟩ 0 k) k| < 8) ∧
    ∃ n, ∀ k, n ≤ k →
      Presentation.shift ⟨33334, 433334, fun i => 33333 * i⟩ 0 k =
        max (-200000) (min 200000 (-Presentation.bias ⟨33334, 433334, fun i => 33333 * i⟩)) :=
  ⟨((Presentation.servo_converges ⟨33334, 2500, fun i => 33333 * i⟩ 0 (by decide)).2.1
      (by decide)).2,
    (Presentation.servo_converges ⟨33334, 433334, fun i => 33333 * i⟩ 0 (by decide)).2.2
      (by decide) (by decide)⟩

end Vmc
