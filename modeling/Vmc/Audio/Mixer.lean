import Vmc.Core
import Vmc.Lib.CInt

/-!
# Vmc.Audio.Mixer

The fixed-point mixer (`audio/mixer.c`): eight sources of interleaved stereo
samples, each with a Q8.8 gain, summed in a 32-bit accumulator and saturated to
16 bits once at the end.

What plays at a source is said twice: by the mixer's state after the calls
(`configured`) and from the calls alone (`playing`), where the last call that
decides about it counts.  `plays_configured` connects the two.

A source refers to its samples, which the caller owns; the memory behind the
pointers is a parameter of the mix.  A read outside an array, a write outside
`out` and a 32-bit operation that overflows have no result (`none`), so that a
mix which returns has done none of them.
-/

namespace Vmc

open CInt

/-- `VMC_MIXER_MAX_SOURCES`. -/
def vmcMixerMaxSources : Nat := 8

/-- An array of `i16` of the program: its size in bytes is a `size_t`. -/
structure PcmBuf where
  samples : List Int16
  fits : samples.length * 2 < 2 ^ 64

/-- `vmc_mixer_source`; a pointer of type `π`, none for `NULL`. -/
structure VmcMixerSource (π : Type) where
  active : Bool
  gainQ8 : Int16
  pcm : Option π
  frames : Nat

/-- `vmc_mixer`. -/
structure VmcMixer (π : Type) where
  src : Fin vmcMixerMaxSources → VmcMixerSource π

section

variable {π : Type}

/-! ## the operations -/

/-- `vmc_mixer_init`. -/
def vmcMixerInit : VmcMixer π :=
  ⟨fun _ => { active := false, gainQ8 := 0, pcm := none, frames := 0 }⟩

/-- `vmc_mixer_set_source`. -/
def vmcMixerSetSource (m : VmcMixer π) (idx : Nat) (pcm : Option π) (frames : Nat)
    (gainQ8 : Int16) : Status × VmcMixer π :=
  if h : idx < vmcMixerMaxSources then
    if 0 < frames ∧ pcm.isNone then (.invalidArg, m)
    else if gainQ8 < 0 then (.invalidArg, m)
    else
      (.ok, ⟨Function.update m.src ⟨idx, h⟩
        { active := decide (0 < frames), gainQ8, pcm, frames }⟩)
  else (.invalidArg, m)

/-- `vmc_mixer_clear_source`: the source keeps its samples and is inactive. -/
def vmcMixerClearSource (m : VmcMixer π) (idx : Nat) : VmcMixer π :=
  if h : idx < vmcMixerMaxSources then
    ⟨Function.update m.src ⟨idx, h⟩ { m.src ⟨idx, h⟩ with active := false }⟩
  else m

/-- `sat_i16`. -/
def satI16 (v : Int) : Int16 :=
  if v > 32767 then 32767 else if v < -32768 then -32768 else Int16.ofInt v

/-- One turn of the loop over the sources, for sample `s`. -/
def mixSource (mem : π → PcmBuf) (m : VmcMixer π) (s : Nat) (acc : Int)
    (i : Fin vmcMixerMaxSources) : Option Int :=
  let src := m.src i
  if src.active = false then some acc
  else if src.frames ≤ s / 2 then some acc
  else do
    let p ← src.pcm
    let x ← (mem p).samples[s]?
    let product ← checked (x.toInt * src.gainQ8.toInt)
    checked (acc + product.tdiv 256)

/-- `out[s] = sat_i16(acc)` after the loop over the sources. -/
def mixSample (mem : π → PcmBuf) (m : VmcMixer π) (s : Nat) : Option Int16 := do
  let acc ← (List.finRange vmcMixerMaxSources).foldlM (mixSource mem m s) 0
  return satI16 acc

theorem length_set_fits (out : PcmBuf) (s : Nat) (v : Int16) :
    (out.samples.set s v).length * 2 < 2 ^ 64 := by
  rw [List.length_set]
  exact out.fits

/-- The store `out[s] = v`. -/
def PcmBuf.store (out : PcmBuf) (s : Nat) (v : Int16) : Option PcmBuf :=
  if s < out.samples.length then some ⟨out.samples.set s v, length_set_fits out s v⟩ else none

/-- `vmc_mixer_mix`; `samples` is the `sz_t` product `frames_out * 2u`. -/
def vmcMixerMix (mem : π → PcmBuf) (m : VmcMixer π) (out : PcmBuf) (framesOut : Nat) :
    Option PcmBuf :=
  if framesOut = 0 then some out
  else
    (List.range (framesOut * 2 % 2 ^ 64)).foldlM
      (fun out s => do out.store s (← mixSample mem m s)) out

/-- A call that configures the mixer. -/
inductive MixerCall (π : Type) where
  | setSource (idx : Nat) (pcm : Option π) (frames : Nat) (gainQ8 : Int16)
  | clearSource (idx : Nat)

/-- The source a call is about. -/
def MixerCall.idx : MixerCall π → Nat
  | .setSource idx .. => idx
  | .clearSource idx => idx

/-- The mixer after a call. -/
def VmcMixer.apply (m : VmcMixer π) : MixerCall π → VmcMixer π
  | .setSource idx pcm frames gainQ8 => (vmcMixerSetSource m idx pcm frames gainQ8).2
  | .clearSource idx => vmcMixerClearSource m idx

/-- The mixer after a sequence of calls on a fresh one. -/
def configured (calls : List (MixerCall π)) : VmcMixer π :=
  calls.foldl VmcMixer.apply vmcMixerInit

/-! ## what the calls ask for -/

/-- The call decides what source `i` plays: it is about `i` and in order.  A call
that is not in order is refused. -/
def MixerCall.decides (c : MixerCall π) (i : Nat) : Bool :=
  match c with
  | .setSource idx pcm frames gainQ8 =>
    idx = i && (frames = 0 || pcm.isSome) && decide (0 ≤ gainQ8)
  | .clearSource idx => idx = i

/-- The samples a source plays, the number of its frames and its gain. -/
structure Playing (π : Type) where
  pcm : π
  frames : Nat
  gainQ8 : Int16

/-- What the source plays after the call that decides it. -/
def MixerCall.plays : MixerCall π → Option (Playing π)
  | .setSource _ (some pcm) frames gainQ8 =>
    if 0 < frames then some { pcm, frames, gainQ8 } else none
  | .setSource _ none _ _ => none
  | .clearSource _ => none

/-- What source `i` plays after the calls: the last call that decides it says so. -/
def playing (calls : List (MixerCall π)) (i : Nat) : Option (Playing π) :=
  (calls.reverse.find? (·.decides i)).bind MixerCall.plays

/-- What a source that plays adds to sample `s`: the product of the sample and
the gain, truncated, where it reaches the frame of `s`. -/
def Playing.contribution (mem : π → PcmBuf) (q : Playing π) (s : Nat) : Int :=
  if s / 2 < q.frames then
    (((mem q.pcm).samples[s]?.getD 0).toInt * q.gainQ8.toInt).tdiv 256
  else 0

/-- The exact sum of the sources that play at sample `s`. -/
def playingSum (mem : π → PcmBuf) (calls : List (MixerCall π)) (s : Nat) : Int :=
  ∑ i : Fin vmcMixerMaxSources, (playing calls i).elim 0 (·.contribution mem s)

/-! ## the exact mix -/

/-- What a source of the mixer plays. -/
def VmcMixerSource.plays (src : VmcMixerSource π) : Option (Playing π) :=
  if src.active then src.pcm.map fun pcm => { pcm, frames := src.frames, gainQ8 := src.gainQ8 }
  else none

/-- What a source adds to sample `s`. -/
def VmcMixerSource.contribution (mem : π → PcmBuf) (src : VmcMixerSource π) (s : Nat) : Int :=
  src.plays.elim 0 (·.contribution mem s)

/-- The exact sum of the sources at sample `s`. -/
def VmcMixer.exactSum (mem : π → PcmBuf) (m : VmcMixer π) (s : Nat) : Int :=
  ∑ i, (m.src i).contribution mem s

/-- The caller's side of `vmc_mixer_set_source`: the arrays behind the sources
hold their stereo frames. -/
def VmcMixer.Backed (mem : π → PcmBuf) (m : VmcMixer π) : Prop :=
  ∀ i q, (m.src i).plays = some q → q.frames * 2 ≤ (mem q.pcm).samples.length

/-- Every active source has samples. -/
def VmcMixer.Fed (m : VmcMixer π) : Prop :=
  ∀ i, (m.src i).active = true → (m.src i).pcm.isSome

/-! ## sequences of calls -/

theorem fed_init : (vmcMixerInit : VmcMixer π).Fed := by
  intro i h
  cases h

theorem VmcMixer.Fed.update {m : VmcMixer π} (hm : m.Fed) {i : Fin vmcMixerMaxSources}
    {src : VmcMixerSource π} (hsrc : src.active = true → src.pcm.isSome) :
    VmcMixer.Fed ⟨Function.update m.src i src⟩ := by
  intro j hj
  by_cases hji : j = i
  · subst hji
    simp only [Function.update_self] at hj ⊢
    exact hsrc hj
  · simp only [Function.update_of_ne hji] at hj ⊢
    exact hm j hj

theorem VmcMixer.Fed.apply {m : VmcMixer π} (hm : m.Fed) (c : MixerCall π) : (m.apply c).Fed := by
  cases c with
  | setSource idx pcm frames gainQ8 =>
    simp only [VmcMixer.apply, vmcMixerSetSource]
    split_ifs with hidx hnull hgain
    · exact hm
    · exact hm
    · refine hm.update fun hactive => ?_
      have hframes : 0 < frames := of_decide_eq_true hactive
      have hpcm : ¬ pcm.isNone := fun hnone => hnull ⟨hframes, hnone⟩
      simpa [Option.isSome_iff_ne_none] using hpcm
    · exact hm
  | clearSource idx =>
    simp only [VmcMixer.apply, vmcMixerClearSource]
    split_ifs with hidx
    · refine hm.update fun hactive => ?_
      cases hactive
    · exact hm

theorem configured_append (calls : List (MixerCall π)) (c : MixerCall π) :
    configured (calls ++ [c]) = (configured calls).apply c := by
  simp [configured]

/-- Whatever the calls, an active source has samples. -/
theorem fed_configured (calls : List (MixerCall π)) : (configured calls).Fed := by
  induction calls using List.reverseRecOn with
  | nil => exact fed_init
  | append_singleton calls c ih =>
    rw [configured_append]
    exact ih.apply c

theorem idx_of_decides {c : MixerCall π} {i : Nat} (h : c.decides i) : c.idx = i := by
  cases c <;> simp_all [MixerCall.decides, MixerCall.idx]

/-- `vmc_mixer_set_source` on a source there is: the calls that decide it are
accepted, and no other. -/
theorem vmcMixerSetSource_eq (m : VmcMixer π) {idx : Nat} (h : idx < vmcMixerMaxSources)
    (pcm : Option π) (frames : Nat) (gainQ8 : Int16) :
    vmcMixerSetSource m idx pcm frames gainQ8 =
      if (MixerCall.setSource idx pcm frames gainQ8).decides idx then
        (.ok, ⟨Function.update m.src ⟨idx, h⟩
          { active := decide (0 < frames), gainQ8, pcm, frames }⟩)
      else (.invalidArg, m) := by
  have hgain : gainQ8 < 0 ↔ ¬ 0 ≤ gainQ8 := Int16.not_le.symm
  have hnull : (0 < frames ∧ pcm.isNone) ↔ ¬ (frames = 0 ∨ pcm.isSome) := by
    cases pcm <;> simp [Nat.pos_iff_ne_zero]
  simp only [vmcMixerSetSource, h, hgain, hnull, MixerCall.decides]
  by_cases hfed : frames = 0 ∨ pcm.isSome <;> by_cases hpos : 0 ≤ gainQ8 <;> simp [hfed, hpos]

theorem vmcMixerSetSource_ok_iff (m : VmcMixer π) (idx : Nat) (pcm : Option π) (frames : Nat)
    (gainQ8 : Int16) :
    (vmcMixerSetSource m idx pcm frames gainQ8).1 = .ok ↔
      idx < vmcMixerMaxSources ∧ (MixerCall.setSource idx pcm frames gainQ8).decides idx := by
  by_cases h : idx < vmcMixerMaxSources
  · rw [vmcMixerSetSource_eq m h]
    split_ifs with hdecides <;> simp [h, hdecides]
  · simp [vmcMixerSetSource, h]

/-- A call about another source leaves source `i` alone. -/
theorem src_apply_of_ne (m : VmcMixer π) (c : MixerCall π) {i : Fin vmcMixerMaxSources}
    (h : c.idx ≠ i) : (m.apply c).src i = m.src i := by
  have hne : ∀ hidx, i ≠ ⟨c.idx, hidx⟩ := fun _ heq => h (congrArg Fin.val heq).symm
  cases c with
  | setSource idx pcm frames gainQ8 =>
    simp only [VmcMixer.apply]
    by_cases hidx : idx < vmcMixerMaxSources
    · rw [vmcMixerSetSource_eq m hidx]
      split_ifs
      · exact Function.update_of_ne (hne hidx) ..
      · rfl
    · simp [vmcMixerSetSource, hidx]
  | clearSource idx =>
    simp only [VmcMixer.apply, vmcMixerClearSource]
    split_ifs with hidx
    · exact Function.update_of_ne (hne hidx) ..
    · rfl

/-- A call gives the source it decides what the call plays, and leaves every
other source what it played. -/
theorem plays_apply (m : VmcMixer π) (c : MixerCall π) (i : Fin vmcMixerMaxSources) :
    ((m.apply c).src i).plays = if c.decides i then c.plays else (m.src i).plays := by
  by_cases hi : c.idx = i
  · cases c with
    | setSource idx pcm frames gainQ8 =>
      obtain rfl : idx = i := hi
      rw [VmcMixer.apply, vmcMixerSetSource_eq m i.isLt]
      split_ifs with hdecides
      · simp only [Function.update_self, VmcMixerSource.plays, MixerCall.plays]
        cases pcm <;> simp
      · rfl
    | clearSource idx =>
      obtain rfl : idx = i := hi
      simp [VmcMixer.apply, vmcMixerClearSource, MixerCall.decides, MixerCall.plays,
        VmcMixerSource.plays]
  · rw [src_apply_of_ne m c hi, if_neg fun h => hi (idx_of_decides h)]

/-- The mixer plays what the calls ask for. -/
theorem plays_configured (calls : List (MixerCall π)) (i : Fin vmcMixerMaxSources) :
    ((configured calls).src i).plays = playing calls i := by
  induction calls using List.reverseRecOn with
  | nil => rfl
  | append_singleton calls c ih =>
    rw [configured_append, plays_apply, ih]
    unfold playing
    rw [List.reverse_concat, List.find?_cons]
    cases c.decides i <;> rfl

/-! ## one sample -/

theorem natAbs_toInt_le (x : Int16) : x.toInt.natAbs ≤ 32768 := by
  have hlo := x.le_toInt
  have hhi := x.toInt_lt
  omega

/-- The product of a sample and a gain is far inside 32 bits. -/
theorem natAbs_product_le (x g : Int16) : (x.toInt * g.toInt).natAbs ≤ 32768 * 32768 := by
  rw [Int.natAbs_mul]
  exact Nat.mul_le_mul (natAbs_toInt_le x) (natAbs_toInt_le g)

theorem Playing.natAbs_contribution_le (mem : π → PcmBuf) (q : Playing π) (s : Nat) :
    (q.contribution mem s).natAbs ≤ 4194304 := by
  unfold Playing.contribution
  split_ifs with h
  · have hprod := natAbs_product_le ((mem q.pcm).samples[s]?.getD 0) q.gainQ8
    rw [Int.natAbs_tdiv]
    exact Nat.div_le_of_le_mul (by simpa using hprod)
  · simp

theorem natAbs_contribution_le (mem : π → PcmBuf) (src : VmcMixerSource π) (s : Nat) :
    (src.contribution mem s).natAbs ≤ 4194304 := by
  unfold VmcMixerSource.contribution
  cases src.plays with
  | none => simp
  | some q => exact q.natAbs_contribution_le mem s

theorem plays_of_active {src : VmcMixerSource π} (h : src.active = true) {p : π}
    (hp : src.pcm = some p) :
    src.plays = some { pcm := p, frames := src.frames, gainQ8 := src.gainQ8 } := by
  simp [VmcMixerSource.plays, h, hp]

/-- A turn of the source loop adds the source's contribution. -/
theorem mixSource_eq {mem : π → PcmBuf} {m : VmcMixer π} (hm : m.Fed) (hbacked : m.Backed mem)
    (s : Nat) (acc : Int) (i : Fin vmcMixerMaxSources)
    (hsum : ((acc + (m.src i).contribution mem s).natAbs : Int) ≤ intMax) :
    mixSource mem m s acc i = some (acc + (m.src i).contribution mem s) := by
  unfold mixSource
  cases hactive : (m.src i).active with
  | false => simp [VmcMixerSource.contribution, VmcMixerSource.plays, hactive]
  | true =>
    obtain ⟨p, hp⟩ := Option.isSome_iff_exists.mp (hm i hactive)
    have hplays := plays_of_active hactive hp
    by_cases hs : (m.src i).frames ≤ s / 2
    · simp [VmcMixerSource.contribution, hplays, Playing.contribution, hs, Nat.not_lt_of_le hs]
    · have hlen : s < (mem p).samples.length := by
        have hframes : (m.src i).frames * 2 ≤ (mem p).samples.length := hbacked i _ hplays
        omega
      have hread : (mem p).samples[s]? = some ((mem p).samples[s]) :=
        List.getElem?_eq_getElem hlen
      have hprod := natAbs_product_le ((mem p).samples[s]) (m.src i).gainQ8
      have hproduct := checked_of_natAbs_le
        (x := ((mem p).samples[s]).toInt * (m.src i).gainQ8.toInt) (by
          unfold intMax
          omega)
      have hcontribution : (m.src i).contribution mem s =
          (((mem p).samples[s]).toInt * (m.src i).gainQ8.toInt).tdiv 256 := by
        simp [VmcMixerSource.contribution, hplays, Playing.contribution, hread,
          Nat.lt_of_not_le hs]
      rw [hcontribution] at hsum ⊢
      have hadd := checked_of_natAbs_le hsum
      simp [hactive, hs, hp, hread, hproduct, hadd]

/-- Eight contributions stay far inside the accumulator. -/
theorem natAbs_contributions_le (mem : π → PcmBuf) (m : VmcMixer π) (s : Nat) :
    ((List.finRange vmcMixerMaxSources).map
      fun i => (((m.src i).contribution mem s).natAbs : Int)).sum ≤ intMax := by
  have hle := List.sum_le_card_nsmul
    ((List.finRange vmcMixerMaxSources).map
      fun i => (((m.src i).contribution mem s).natAbs : Int)) 4194304 (by
        intro x hx
        obtain ⟨i, -, rfl⟩ := List.mem_map.mp hx
        exact_mod_cast natAbs_contribution_le mem (m.src i) s)
  refine hle.trans ?_
  simp [vmcMixerMaxSources, intMax]

/-- A sample is the saturated exact sum. -/
theorem mixSample_eq {mem : π → PcmBuf} {m : VmcMixer π} (hm : m.Fed) (hbacked : m.Backed mem)
    (s : Nat) : mixSample mem m s = some (satI16 (m.exactSum mem s)) := by
  have hfold := foldlM_add_of_natAbs_le (mixSource_eq hm hbacked s)
    (List.finRange vmcMixerMaxSources) 0 (by
      simpa using natAbs_contributions_le mem m s)
  unfold mixSample
  rw [hfold]
  simp [VmcMixer.exactSum, Fin.sum_univ_def]

/-- `sat_i16` clamps to the range of `i16`. -/
theorem toInt_satI16 (v : Int) : (satI16 v).toInt = max (-32768) (min 32767 v) := by
  unfold satI16
  split_ifs with hhi hlo
  · rw [min_eq_left (by omega)]
    rfl
  · rw [min_eq_right (by omega), max_eq_left (by omega)]
    rfl
  · rw [Int16.toInt_ofInt_of_le (by omega) (by omega)]
    omega

/-! ## the whole mix -/

theorem store_of_lt {out : PcmBuf} {s : Nat} (hs : s < out.samples.length) (v : Int16) :
    out.store s v = some ⟨out.samples.set s v, length_set_fits out s v⟩ := if_pos hs

/-- The loop over the samples, run for the first `n`: they hold the mix, and the
rest of `out` is what it was. -/
theorem mix_prefix {mem : π → PcmBuf} {m : VmcMixer π} (hm : m.Fed) (hbacked : m.Backed mem)
    (out : PcmBuf) (n : Nat) (hn : n ≤ out.samples.length) :
    ∃ out', (List.range n).foldlM
        (fun out s => do PcmBuf.store out s (← mixSample mem m s)) out = some out' ∧
      out'.samples.length = out.samples.length ∧
      (∀ s < n, out'.samples[s]? = some (satI16 (m.exactSum mem s))) ∧
      ∀ s, n ≤ s → out'.samples[s]? = out.samples[s]? := by
  induction n with
  | zero => exact ⟨out, rfl, rfl, by simp, by simp⟩
  | succ n ih =>
    obtain ⟨mid, hrun, hlen, hmixed, hrest⟩ := ih (by omega)
    have hn' : n < mid.samples.length := by omega
    have hstore := store_of_lt hn' (satI16 (m.exactSum mem n))
    refine ⟨⟨mid.samples.set n (satI16 (m.exactSum mem n)), length_set_fits mid n _⟩,
      ?_, ?_, ?_, ?_⟩
    · rw [List.range_succ, List.foldlM_append, hrun]
      simp [mixSample_eq hm hbacked, hstore]
    · exact (List.length_set ..).trans hlen
    · intro s hs
      change (mid.samples.set n (satI16 (m.exactSum mem n)))[s]? = _
      by_cases hsn : s = n
      · subst hsn
        rw [List.getElem?_set_self (by omega)]
      · rw [List.getElem?_set_ne (by omega), hmixed s (by omega)]
    · intro s hs
      change (mid.samples.set n (satI16 (m.exactSum mem n)))[s]? = _
      rw [List.getElem?_set_ne (by omega), hrest s (by omega)]

/-- The mixer sums the sources that the calls leave playing. -/
theorem exactSum_configured (mem : π → PcmBuf) (calls : List (MixerCall π)) (s : Nat) :
    (configured calls).exactSum mem s = playingSum mem calls s := by
  refine Finset.sum_congr rfl fun i _ => ?_
  rw [VmcMixerSource.contribution, plays_configured]

theorem playingSum_eq_zero {mem : π → PcmBuf} {calls : List (MixerCall π)} {s : Nat}
    (h : ∀ i < vmcMixerMaxSources, ∀ q, playing calls i = some q → q.frames ≤ s / 2) :
    playingSum mem calls s = 0 := by
  refine Finset.sum_eq_zero fun i _ => ?_
  cases hq : playing calls i with
  | none => rfl
  | some q =>
    have hframes := h i i.isLt q hq
    exact if_neg (Nat.not_lt.mpr hframes)

/-! ## exchanged sources -/

/-- A source index under a renaming of the eight sources; an index out of range
stays out of range. -/
def renameIdx (σ : Equiv.Perm (Fin vmcMixerMaxSources)) (idx : Nat) : Nat :=
  if h : idx < vmcMixerMaxSources then σ ⟨idx, h⟩ else idx

/-- The call on the renamed source. -/
def MixerCall.rename (σ : Equiv.Perm (Fin vmcMixerMaxSources)) : MixerCall π → MixerCall π
  | .setSource idx pcm frames gainQ8 => .setSource (renameIdx σ idx) pcm frames gainQ8
  | .clearSource idx => .clearSource (renameIdx σ idx)

/-- `m'` holds the sources of `m` at the renamed indices. -/
def Renamed (σ : Equiv.Perm (Fin vmcMixerMaxSources)) (m m' : VmcMixer π) : Prop :=
  ∀ i, m'.src (σ i) = m.src i

theorem renameIdx_of_lt (σ : Equiv.Perm (Fin vmcMixerMaxSources)) {idx : Nat}
    (h : idx < vmcMixerMaxSources) : renameIdx σ idx = σ ⟨idx, h⟩ := dif_pos h

theorem renameIdx_lt_iff (σ : Equiv.Perm (Fin vmcMixerMaxSources)) (idx : Nat) :
    renameIdx σ idx < vmcMixerMaxSources ↔ idx < vmcMixerMaxSources := by
  unfold renameIdx
  split_ifs with h
  · exact iff_of_true (σ ⟨idx, h⟩).isLt h
  · rfl

theorem Renamed.update {σ : Equiv.Perm (Fin vmcMixerMaxSources)} {m m' : VmcMixer π}
    (h : Renamed σ m m') (i : Fin vmcMixerMaxSources) (src : VmcMixerSource π) :
    Renamed σ ⟨Function.update m.src i src⟩ ⟨Function.update m'.src (σ i) src⟩ := by
  intro j
  by_cases hji : j = i
  · simp [hji]
  · have hσ : σ j ≠ σ i := fun heq => hji (σ.injective heq)
    simp [hji, hσ, h j]

theorem Renamed.apply {σ : Equiv.Perm (Fin vmcMixerMaxSources)} {m m' : VmcMixer π}
    (h : Renamed σ m m') (c : MixerCall π) : Renamed σ (m.apply c) (m'.apply (c.rename σ)) := by
  cases c with
  | setSource idx pcm frames gainQ8 =>
    simp only [VmcMixer.apply, MixerCall.rename, vmcMixerSetSource, renameIdx_lt_iff]
    split_ifs with hidx hnull hgain
    · exact h
    · exact h
    · simp only [renameIdx_of_lt σ hidx]
      exact h.update ⟨idx, hidx⟩ _
    · exact h
  | clearSource idx =>
    simp only [VmcMixer.apply, MixerCall.rename, vmcMixerClearSource, renameIdx_lt_iff]
    split_ifs with hidx
    · simp only [renameIdx_of_lt σ hidx, Fin.eta]
      rw [h ⟨idx, hidx⟩]
      exact h.update ⟨idx, hidx⟩ _
    · exact h

theorem renamed_configured (σ : Equiv.Perm (Fin vmcMixerMaxSources))
    (calls : List (MixerCall π)) :
    Renamed σ (configured calls) (configured (calls.map (MixerCall.rename σ))) := by
  unfold configured
  induction calls using List.reverseRecOn with
  | nil => exact fun _ => rfl
  | append_singleton calls c ih =>
    rw [List.map_append, List.foldl_append, List.foldl_append]
    exact ih.apply c

/-- Exchanging the sources does not change the exact sum. -/
theorem Renamed.exactSum_eq {σ : Equiv.Perm (Fin vmcMixerMaxSources)} {m m' : VmcMixer π}
    (h : Renamed σ m m') (mem : π → PcmBuf) (s : Nat) :
    m'.exactSum mem s = m.exactSum mem s := by
  unfold VmcMixer.exactSum
  rw [← Equiv.sum_comp σ]
  exact Finset.sum_congr rfl fun i _ => by rw [h i]

theorem Renamed.backed {σ : Equiv.Perm (Fin vmcMixerMaxSources)} {m m' : VmcMixer π}
    (h : Renamed σ m m') {mem : π → PcmBuf} (hbacked : m.Backed mem) : m'.Backed mem := by
  intro i q hq
  obtain ⟨j, rfl⟩ := σ.surjective i
  rw [h j] at hq
  exact hbacked j q hq

/-- Exchanging the sources does not change the mix. -/
theorem Renamed.mix_eq {σ : Equiv.Perm (Fin vmcMixerMaxSources)} {m m' : VmcMixer π}
    (h : Renamed σ m m') (hm : m.Fed) (hm' : m'.Fed) {mem : π → PcmBuf} (hbacked : m.Backed mem)
    (out : PcmBuf) (framesOut : Nat) :
    vmcMixerMix mem m' out framesOut = vmcMixerMix mem m out framesOut := by
  have hsample : mixSample mem m' = mixSample mem m := by
    funext s
    rw [mixSample_eq hm hbacked, mixSample_eq hm' (h.backed hbacked), h.exactSum_eq mem s]
  unfold vmcMixerMix
  rw [hsample]

/-! ## the mixer is exact -/

/-- `vmc_mixer_mix` on a mixer whose active sources have samples: `out` holds
the saturated exact sums and is otherwise untouched. -/
theorem vmcMixerMix_spec {mem : π → PcmBuf} {m : VmcMixer π} (hm : m.Fed) (hbacked : m.Backed mem)
    (out : PcmBuf) (framesOut : Nat) (hout : 2 * framesOut ≤ out.samples.length) :
    ∃ out', vmcMixerMix mem m out framesOut = some out' ∧
      out'.samples.length = out.samples.length ∧
      (∀ s < 2 * framesOut, out'.samples[s]? = some (satI16 (m.exactSum mem s))) ∧
      ∀ s, 2 * framesOut ≤ s → out'.samples[s]? = out.samples[s]? := by
  have hfits := out.fits
  -- `out` has room for the samples, so their number does not wrap
  have hsamples : framesOut * 2 % 2 ^ 64 = 2 * framesOut := by omega
  unfold vmcMixerMix
  split_ifs with hzero
  · subst hzero
    exact ⟨out, rfl, rfl, by simp, by simp⟩
  · rw [hsamples]
    exact mix_prefix hm hbacked out (2 * framesOut) hout

/-- After any calls, a mix into an `out` with room for it returns, so nothing
overflows and nothing is read out of bounds.  Every sample is the sum of the
truncated products of the sources that the calls leave playing there, clamped
once; the rest of `out` is untouched, the result does not depend on which source
sits where, and it is silence beyond the longest source.  A source plays what
the last accepted call about it says. -/
theorem mix_exact (calls : List (MixerCall π)) (mem : π → PcmBuf) (out : PcmBuf)
    (framesOut : Nat) (hout : 2 * framesOut ≤ out.samples.length)
    (hbacked : ∀ i < vmcMixerMaxSources, ∀ q, playing calls i = some q →
      q.frames * 2 ≤ (mem q.pcm).samples.length) :
    (∀ idx pcm frames gainQ8,
      (vmcMixerSetSource (configured calls) idx pcm frames gainQ8).1 = .ok ↔
        idx < vmcMixerMaxSources ∧ (MixerCall.setSource idx pcm frames gainQ8).decides idx) ∧
    ∃ out', vmcMixerMix mem (configured calls) out framesOut = some out' ∧
      out'.samples.length = out.samples.length ∧
      (∀ s < 2 * framesOut, ∃ v, out'.samples[s]? = some v ∧
        v.toInt = max (-32768) (min 32767 (playingSum mem calls s))) ∧
      (∀ s, 2 * framesOut ≤ s → out'.samples[s]? = out.samples[s]?) ∧
      (∀ σ : Equiv.Perm (Fin vmcMixerMaxSources),
        vmcMixerMix mem (configured (calls.map (MixerCall.rename σ))) out framesOut =
          some out') ∧
      ∀ s < 2 * framesOut, (∀ i < vmcMixerMaxSources, ∀ q, playing calls i = some q →
        q.frames ≤ s / 2) → out'.samples[s]? = some 0 := by
  have hfed := fed_configured calls
  have hbacked' : (configured calls).Backed mem := by
    intro i q hq
    rw [plays_configured] at hq
    exact hbacked i i.isLt q hq
  obtain ⟨out', hrun, hlen, hmixed, hrest⟩ :=
    vmcMixerMix_spec hfed hbacked' out framesOut hout
  simp only [exactSum_configured] at hmixed
  refine ⟨vmcMixerSetSource_ok_iff _, out', hrun, hlen, ?_, hrest, ?_, ?_⟩
  · intro s hs
    exact ⟨_, hmixed s hs, toInt_satI16 _⟩
  · intro σ
    have hrenamed := renamed_configured σ calls
    rw [hrenamed.mix_eq hfed (fed_configured _) hbacked', hrun]
  · intro s hs hsilent
    rw [hmixed s hs, playingSum_eq_zero hsilent]
    rfl

end

/-! Two sources at full scale, one of them at half gain, one frame apart. -/

theorem loudPcm_fits : [(32767 : Int16), -32768, 32767, -32768].length * 2 < 2 ^ 64 := by decide

/-- Two frames at full scale. -/
def loudPcm : PcmBuf := ⟨[32767, -32768, 32767, -32768], loudPcm_fits⟩

/-- Two sources read it, the first for one frame only; a third is cleared, and a
negative gain for the second is refused. -/
def loudCalls : List (MixerCall Unit) :=
  [.setSource 0 (some ()) 2 256, .setSource 1 (some ()) 2 128, .setSource 2 (some ()) 2 256,
    .setSource 0 (some ()) 1 256, .clearSource 2, .setSource 1 (some ()) 2 (-1)]

theorem mix_exact_loud :
    ∃ out', vmcMixerMix (fun _ => loudPcm) (configured loudCalls) loudPcm 2 = some out' ∧
      out'.samples = [32767, -32768, 16383, -16384] := by
  have hframes : ∀ i < vmcMixerMaxSources, ∀ q ∈ playing loudCalls i, q.frames * 2 ≤ 4 := by
    decide
  have hsums : ∀ s < 4, max (-32768) (min 32767 (playingSum (fun _ => loudPcm) loudCalls s)) =
      ([(32767 : Int16), -32768, 16383, -16384].getD s 0).toInt := by
    decide +kernel
  obtain ⟨-, out', hrun, hlen, hmixed, -⟩ :=
    mix_exact loudCalls (fun _ => loudPcm) loudPcm 2 (by decide) hframes
  refine ⟨out', hrun, List.ext_getElem hlen fun s hs hs' => ?_⟩
  obtain ⟨v, hv, hvalue⟩ := hmixed s hs'
  rw [hsums s hs'] at hvalue
  rw [List.getElem?_eq_getElem hs, Option.some.injEq] at hv
  rw [hv, Int16.toInt_inj.mp hvalue]
  exact (List.getElem_eq_getD 0).symm

end Vmc
