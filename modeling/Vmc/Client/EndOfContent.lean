import Vmc.Client.DashReader

/-!
# Vmc.Client.EndOfContent

What `g_eos_reached` says about a play-once clip (`dash_reader_direct` in
`apps/thinclient/main.c`).

The end test looks at `last_vnum` alone, and lets it be one short: segments are
numbered from 1, and the test is against `total_segments - 1`.  So the clip is
declared over when its last video segment failed or was not yet asked for, and
whatever became of the audio.  `eos_complete` gives the condition under which
the end of a run does mean that everything was demuxed.
-/

namespace Vmc

open CInt ReaderEvent

/-! ## requests that are answered -/

/-- The request brought a segment. -/
def Fetch.Got : Fetch → Prop
  | .failed => False
  | .got _ _ => True

/-- The request brought a segment, and there was memory to demux it. -/
def Fetch.Kept : Fetch → Prop
  | .got _ true => True
  | _ => False

/-- The requests for the segments `lo` to `hi` are made and turn out as `p`. -/
def Through (p : Fetch → Prop) : List Fetch → Int → Int → Prop
  | [], lo, hi => hi < lo
  | f :: fs, lo, hi => lo ≤ hi → p f ∧ Through p fs (lo + 1) hi

instance : DecidablePred Fetch.Got
  | .failed => .isFalse id
  | .got _ _ => .isTrue trivial

instance : DecidablePred Fetch.Kept
  | .failed => .isFalse id
  | .got _ true => .isTrue trivial
  | .got _ false => .isFalse id

instance decidableThrough {p : Fetch → Prop} [DecidablePred p] :
    (fs : List Fetch) → (lo hi : Int) → Decidable (Through p fs lo hi)
  | [], lo, hi => inferInstanceAs (Decidable (hi < lo))
  | f :: fs, lo, hi =>
      have := decidableThrough (p := p) fs (lo + 1) hi
      inferInstanceAs (Decidable (lo ≤ hi → p f ∧ Through p fs (lo + 1) hi))

theorem through_of_lt {p : Fetch → Prop} {fs : List Fetch} {lo hi : Int} (h : hi < lo) :
    Through p fs lo hi := by
  cases fs with
  | nil => exact h
  | cons f fs => exact fun hle => absurd hle (by omega)

/-! ## the loops -/

namespace DashReader

variable {c : DashSession} {m : DashManifest} {hi n target : Int}

/-- The audio mark comes to stand on a segment only by demuxing it. -/
theorem demuxed_of_audioLoop (fs : List Fetch) :
    ∀ {seg last : Int}, (audioLoop target fs seg last).1 = n →
      last = n ∨ demuxAudio n ∈ (audioLoop target fs seg last).2 := by
  induction fs with
  | nil =>
      intro seg last h
      exact Or.inl h
  | cons f fs ih =>
      intro seg last h
      unfold audioLoop at h ⊢
      by_cases hc : seg ≤ target ∧ ¬ (0 ≤ last ∧ seg ≤ last)
      · rw [if_pos hc] at h ⊢
        cases f with
        | failed => exact Or.inl h
        | got size kept =>
            cases kept with
            | true =>
                obtain rfl | hmem := ih h
                · exact Or.inr (by simp)
                · exact Or.inr (List.mem_cons_of_mem _ (List.mem_cons_of_mem _ hmem))
            | false => exact (ih h).imp_right (List.mem_cons_of_mem _)
      · rw [if_neg hc] at h ⊢
        exact Or.inl h

/-- Audio requests that are all answered bring the last segment asked for. -/
theorem demux_of_audioLoop (hn : n < intMax) (htarget : n ≤ target) (fs : List Fetch) :
    ∀ {seg last : Int}, 0 ≤ seg → seg ≤ n → last < seg → Through Fetch.Kept fs seg n →
      demuxAudio n ∈ (audioLoop target fs seg last).2 := by
  induction fs with
  | nil =>
      intro seg last _ hle _ h
      exact absurd h (not_lt.mpr hle)
  | cons f fs ih =>
      intro seg last hseg hle hlast h
      have hint := intMax_eq
      obtain ⟨hf, hrest⟩ := h hle
      unfold audioLoop
      rw [if_pos ⟨by omega, by omega⟩, toInt_of_range (x := seg + 1) (by omega) (by omega)]
      cases f with
      | failed => exact hf.elim
      | got size kept =>
          cases kept with
          | false => exact hf.elim
          | true =>
              by_cases hend : seg = n
              · simp [hend]
              · have hmem := ih (by omega) (by omega) (show seg < seg + 1 by omega) hrest
                exact List.mem_cons_of_mem _ (List.mem_cons_of_mem _ hmem)

/-- The video mark comes to stand on a segment only by demuxing it, if no segment
is dropped. -/
theorem demuxed_of_videoLoop (fs : List Fetch) :
    ∀ {vn : Int} {r : DashReader}, c.Keeps fs →
      (videoLoop c m hi fs vn r).1.lastVnum = n →
      r.lastVnum = n ∨ demuxVideo n ∈ (videoLoop c m hi fs vn r).2 := by
  induction fs with
  | nil =>
      intro vn r _ h
      exact Or.inl h
  | cons f fs ih =>
      intro vn r hkept h
      unfold videoLoop at h ⊢
      by_cases hc : vn ≤ hi
      · rw [if_pos hc] at h ⊢
        cases f with
        | failed => exact Or.inl h
        | got us whole =>
            dsimp only at h ⊢
            rw [if_pos hkept.head] at h ⊢
            right
            obtain hvn | hmem := ih hkept.tail h
            · simp [← hvn]
            · exact List.mem_cons_of_mem _ (List.mem_cons_of_mem _ hmem)
      · rw [if_neg hc] at h ⊢
        exact Or.inl h

/-- Video requests that are all answered bring the last segment asked for. -/
theorem demux_of_videoLoop (hn : n < intMax) (hhi : n ≤ hi) (fs : List Fetch) :
    ∀ {vn : Int} {r : DashReader}, c.Keeps fs →
      0 ≤ vn → vn ≤ n → Through Fetch.Got fs vn n →
      demuxVideo n ∈ (videoLoop c m hi fs vn r).2 := by
  induction fs with
  | nil =>
      intro vn r _ _ hle h
      exact absurd h (not_lt.mpr hle)
  | cons f fs ih =>
      intro vn r hkept hvn hle h
      have hint := intMax_eq
      obtain ⟨hf, hrest⟩ := h hle
      unfold videoLoop
      rw [if_pos (by omega), toInt_of_range (x := vn + 1) (by omega) (by omega)]
      cases f with
      | failed => exact hf.elim
      | got us whole =>
          dsimp only
          rw [if_pos hkept.head]
          by_cases hend : vn = n
          · simp [hend]
          · have hmem := ih (r := { r.updateLiveBuffer us (toInt m.segDurationUs) with lastVnum := vn })
              hkept.tail (by omega) (by omega) hrest
            exact List.mem_cons_of_mem _ (List.mem_cons_of_mem _ hmem)

/-- The video loop takes the mark to `n` only through answered requests. -/
theorem through_of_videoLoop (hhi : hi < intMax) (fs : List Fetch) :
    ∀ {vn : Int} {r : DashReader}, 0 ≤ vn → n ≤ (videoLoop c m hi fs vn r).1.lastVnum →
      n ≤ r.lastVnum ∨ (vn ≤ hi ∧ n ≤ hi ∧ Through Fetch.Got fs vn n) := by
  induction fs with
  | nil =>
      intro vn r _ h
      exact Or.inl h
  | cons f fs ih =>
      intro vn r hvn h
      have hint := intMax_eq
      unfold videoLoop at h
      by_cases hc : vn ≤ hi
      · rw [if_pos hc, toInt_of_range (x := vn + 1) (by omega) (by omega)] at h
        cases f with
        | failed => exact Or.inl h
        | got us whole =>
            right
            have hlast : n ≤ (videoLoop c m hi fs (vn + 1)
                { r.updateLiveBuffer us (toInt m.segDurationUs) with lastVnum := vn }).1.lastVnum := by
              dsimp only at h
              split at h <;> exact h
            obtain hle | ⟨-, hn, hrest⟩ := ih (by omega) hlast
            · dsimp only at hle
              exact ⟨hc, by omega, fun _ => ⟨trivial, through_of_lt (by omega)⟩⟩
            · exact ⟨hc, hn, fun _ => ⟨trivial, hrest⟩⟩
      · rw [if_neg hc] at h
        exact Or.inl h

end DashReader

/-! ## the last iteration -/

namespace Iteration

/-- The first segment the video loop asks for. -/
def videoFirst (it : Iteration) (r : DashReader) : Int :=
  if it.Resets r then it.videoTarget r else (it.resume r).2

/-- The first segment the audio loop asks for, with the mark it goes on from. -/
def audioFirst (it : Iteration) (r : DashReader) : Int × Int :=
  DashReader.audioResume it.m.startNumber (it.m.audioTarget it.liveEdge)
    (it.m.windowBottom it.liveEdge r.audioLiveBufferUs) r.lastAnum

/-- The video requests of the iteration are answered up to the last segment but
one, if they go that far: this is what the end test asks for. -/
def NearEnd (it : Iteration) (r : DashReader) (n : Int) : Prop :=
  n - 1 ≤ it.vfetchHi r ∧ Through Fetch.Got it.video (it.videoFirst r) (n - 1)

/-- What it takes for a clip of `n` segments to be over when the reader says so:
the window never lies past the end and no fetched segment is dropped for want
of memory; and an iteration that comes near the end gets to it, in video and,
unless it was there before, in audio. -/
structure Finishes (c : DashSession) (n : Int) (it : Iteration) (r : DashReader) : Prop where
  start_le : it.m.startNumber ≤ n
  kept : c.Keeps it.video
  video : it.m.totalSegments = n → it.NearEnd r n →
    n ≤ it.vfetchHi r ∧ Through Fetch.Got it.video (it.videoFirst r) n
  audio : it.m.totalSegments = n → it.NearEnd r n → c.hasInitA = true →
    r.lastAnum = n ∨
      (r.lastAnum < n ∧ n ≤ it.liveEdge ∧ Through Fetch.Kept it.audio (it.audioFirst r).2 n)

end Iteration

namespace DashReader

variable {c : DashSession} {n : Int} {r : DashReader} {t : List ReaderEvent} {it : Iteration}

/-- Wherever a mark stands on segment `n`, that segment was demuxed. -/
structure Backed (n : Int) (r : DashReader) (t : List ReaderEvent) : Prop where
  video : r.lastVnum = n → demuxVideo n ∈ t
  audio : r.lastAnum = n → demuxAudio n ∈ t

/-- The rolling-window guard leaves the mark where it was or below the window. -/
theorem audioResume_mark (start target oldest last : Int) :
    (audioResume start target oldest last).1 = last ∨
      (audioResume start target oldest last).1 = toInt (start - 1) := by
  unfold audioResume
  extract_lets first last' first' p
  show p.1 = last ∨ p.1 = toInt (start - 1)
  by_cases h : first < start
  · exact Or.inr (congrArg Prod.fst (if_pos h))
  · exact Or.inl (congrArg Prod.fst (if_neg h))

theorem videoResume_mark (start target last : Int) :
    (videoResume start target last).1 = last ∨
      (videoResume start target last).1 = toInt (start - 1) := by
  unfold videoResume
  extract_lets vn
  by_cases h : vn < start
  · exact Or.inr (congrArg Prod.fst (if_pos h))
  · exact Or.inl (congrArg Prod.fst (if_neg h))

theorem backed_fetchAudio (hn : it.m.startNumber ≤ n) (h : Backed n r t) :
    Backed n (r.fetchAudio c it).1 (t ++ (r.fetchAudio c it).2) := by
  unfold fetchAudio
  by_cases hc : c.hasInitA = true
  · rw [if_pos hc]
    constructor
    · intro hv
      exact List.mem_append_left _ (h.video hv)
    · intro ha
      have hstart := it.m.start_nonneg
      have hmax := it.m.start_le
      have hint := intMax_eq
      obtain hmark | hmem := demuxed_of_audioLoop it.audio ha
      · obtain heq | heq := audioResume_mark it.m.startNumber (it.m.audioTarget it.liveEdge)
          (it.m.windowBottom it.liveEdge r.audioLiveBufferUs) r.lastAnum
        · exact List.mem_append_left _ (h.audio (heq.symm.trans hmark))
        · rw [toInt_of_range (by omega) (by omega)] at heq
          exact absurd (heq.symm.trans hmark) (by omega)
      · exact List.mem_append_right _ hmem
  · rw [if_neg hc, List.append_nil]
    exact h

theorem backed_videoLoop {m : DashManifest} {hi vn : Int} {fs : List Fetch} (hkept : c.Keeps fs)
    (h : Backed n r t) :
    Backed n (videoLoop c m hi fs vn r).1 (t ++ (videoLoop c m hi fs vn r).2) := by
  constructor
  · intro hv
    obtain hmark | hmem := demuxed_of_videoLoop fs hkept hv
    · exact List.mem_append_left _ (h.video hmark)
    · exact List.mem_append_right _ hmem
  · intro ha
    rw [videoLoop_lastAnum] at ha
    exact List.mem_append_left _ (h.audio ha)

theorem backed_fetchVideo (hn : 0 ≤ n) (hstart : it.m.startNumber ≤ n) (hkept : c.Keeps it.video)
    (h : Backed n r t) : Backed n (r.fetchVideo c it).1 (t ++ (r.fetchVideo c it).2) := by
  by_cases hreset : it.Resets r
  · have hcut : Backed n { r with lastVnum := -1, lastAnum := -1 } (t ++ [reset]) :=
      ⟨fun hv => absurd hv (by dsimp only; omega), fun ha => absurd ha (by dsimp only; omega)⟩
    rw [fetchVideo_of_resets hreset]
    dsimp only
    rw [List.append_cons]
    exact backed_videoLoop hkept hcut
  · have hjump : Backed n { r with lastVnum := (it.resume r).1 } t := by
      refine ⟨fun hv => ?_, h.audio⟩
      have hge := it.m.start_nonneg
      have hmax := it.m.start_le
      have hint := intMax_eq
      obtain heq | heq := videoResume_mark it.m.startNumber (it.videoTarget r) r.lastVnum
      · exact h.video (heq.symm.trans hv)
      · rw [toInt_of_range (by omega) (by omega)] at heq
        exact absurd (heq.symm.trans hv) (by omega)
    rw [fetchVideo_of_not_resets hreset]
    exact backed_videoLoop hkept hjump

theorem backed_iteration (hn : 0 ≤ n) (hit : it.Finishes c n r) (h : Backed n r t) :
    Backed n (r.iteration c it).1 (t ++ (r.iteration c it).2) := by
  have hv := backed_fetchVideo (c := c) hn hit.start_le hit.kept
    (backed_fetchAudio (c := c) hit.start_le h)
  rw [List.append_assoc] at hv
  exact ⟨hv.video, hv.audio⟩

/-- A mark the guard leaves inside the clip is the segment before the first. -/
theorem videoResume_next {start target last : Int} (hstart : 0 ≤ start) (hmax : start ≤ intMax)
    (hge : 0 ≤ (videoResume start target last).1)
    (hlt : (videoResume start target last).1 < intMax) :
    (videoResume start target last).2 = (videoResume start target last).1 + 1 := by
  have hint := intMax_eq
  by_cases h : (if last < 0 then target else toInt (last + 1)) < start
  · have heq : videoResume start target last = (toInt (start - 1), start) := if_pos h
    rw [heq, toInt_of_range (by omega) (by omega)]
    exact (sub_add_cancel start 1).symm
  · have heq : videoResume start target last =
        (last, if last < 0 then target else toInt (last + 1)) := if_neg h
    rw [heq] at hge hlt ⊢
    dsimp only at hge hlt ⊢
    rw [if_neg (by omega), toInt_of_range (by omega) (by omega)]

theorem start_le_videoFirst (it : Iteration) (r : DashReader) :
    it.m.startNumber ≤ it.videoFirst r := by
  unfold Iteration.videoFirst
  by_cases hreset : it.Resets r
  · rw [if_pos hreset]
    exact start_le_windowBottom _ _ _
  · rw [if_neg hreset]
    unfold Iteration.resume videoResume
    extract_lets vn
    split <;> dsimp only <;> omega

theorem vfetchHi_le (hmax : n < intMax) (hn : 1 ≤ n) (htotal : it.m.totalSegments = n) :
    it.vfetchHi r ≤ n := by
  have hint := intMax_eq
  have hle := vfetchHi_le_total (m := it.m) it.liveEdge (it.videoTarget r) (by omega)
  rwa [htotal, toInt_of_range (by omega) (by omega)] at hle

/-- The end test passes only near the end: with the last segment still to be
asked for, or behind. -/
theorem nearEnd_of_fetchVideo (hn : 1 ≤ n) (hmax : n < intMax) (htotal : it.m.totalSegments = n)
    (hstart : it.m.startNumber ≤ n) (h : n - 1 ≤ (r.fetchVideo c it).1.lastVnum) :
    it.NearEnd r n ∧ (it.videoFirst r ≤ n ∨ r.lastVnum = n) := by
  have hge := it.m.start_nonneg
  have hle := it.m.start_le
  have hint := intMax_eq
  have hfirst := start_le_videoFirst it r
  have hhi := vfetchHi_le (r := r) hmax hn htotal
  unfold Iteration.NearEnd
  by_cases hreset : it.Resets r
  · have hvf : it.videoFirst r = it.videoTarget r := if_pos hreset
    rw [fetchVideo_of_resets hreset, ← hvf] at h
    obtain habs | ⟨hvn, hlast, hthrough⟩ := through_of_videoLoop (by omega) it.video (by omega) h
    · exact absurd habs (by dsimp only; omega)
    · exact ⟨⟨hlast, hthrough⟩, Or.inl (by omega)⟩
  · have hvf : it.videoFirst r = (it.resume r).2 := if_neg hreset
    rw [fetchVideo_of_not_resets hreset, ← hvf] at h
    obtain hmark | ⟨hvn, hlast, hthrough⟩ := through_of_videoLoop (by omega) it.video (by omega) h
    · -- nothing was fetched: the mark was there before, or the window ends here
      dsimp only at hmark
      have hbelow : (it.resume r).1 ≤ it.vfetchHi r := by
        by_contra hlt
        exact hreset ⟨by omega, by omega⟩
      have hnext : it.videoFirst r = (it.resume r).1 + 1 := by
        rw [hvf]
        exact videoResume_next hge hle (show 0 ≤ (it.resume r).1 by omega)
          (show (it.resume r).1 < intMax by omega)
      refine ⟨⟨by omega, through_of_lt (by omega)⟩, ?_⟩
      obtain heq | heq := videoResume_mark it.m.startNumber (it.videoTarget r) r.lastVnum
      · have heq' : (it.resume r).1 = r.lastVnum := heq
        omega
      · rw [toInt_of_range (by omega) (by omega)] at heq
        have heq' : (it.resume r).1 = it.m.startNumber - 1 := heq
        omega
    · exact ⟨⟨hlast, hthrough⟩, Or.inl (by omega)⟩

theorem demux_of_fetchVideo (hmax : n < intMax) (hkept : c.Keeps it.video)
    (hfirst : it.videoFirst r ≤ n) (hhi : n ≤ it.vfetchHi r)
    (h : Through Fetch.Got it.video (it.videoFirst r) n) :
    demuxVideo n ∈ (r.fetchVideo c it).2 := by
  have hge := le_trans it.m.start_nonneg (start_le_videoFirst it r)
  by_cases hreset : it.Resets r
  · have hvf : it.videoFirst r = it.videoTarget r := if_pos hreset
    rw [fetchVideo_of_resets hreset, ← hvf]
    exact List.mem_cons_of_mem _ (demux_of_videoLoop hmax hhi it.video hkept hge hfirst h)
  · have hvf : it.videoFirst r = (it.resume r).2 := if_neg hreset
    rw [fetchVideo_of_not_resets hreset, ← hvf]
    exact demux_of_videoLoop hmax hhi it.video hkept hge hfirst h

/-- Where the audio loop sets in when the end of the clip is its target: past the
mark. -/
theorem audioResume_before {start oldest last : Int} (hstart : 0 ≤ start) (hn : start ≤ n)
    (hmax : n < intMax) (holdest : start ≤ oldest) (hlast : last < n) :
    (audioResume start n oldest last).1 < (audioResume start n oldest last).2 ∧
      0 ≤ (audioResume start n oldest last).2 ∧ (audioResume start n oldest last).2 ≤ n := by
  have hint := intMax_eq
  unfold audioResume
  dsimp only
  rw [toInt_of_range (x := start - 1) (by omega) (by omega), sub_add_cancel,
    toInt_of_range (x := start) (by omega) (by omega)]
  by_cases hfresh : last < 0
  · rw [if_pos hfresh, if_neg (by omega)]
    dsimp only
    split <;> omega
  · rw [if_neg hfresh, toInt_of_range (x := last + 1) (by omega) (by omega)]
    by_cases hjump : last + 1 < start
    · rw [if_pos hjump]
      dsimp only
      split_ifs <;> omega
    · rw [if_neg hjump]
      dsimp only
      split_ifs <;> omega

theorem demux_of_fetchAudio (hmax : n < intMax) (hstart : it.m.startNumber ≤ n)
    (hc : c.hasInitA = true) (hlast : r.lastAnum < n) (hedge : it.liveEdge = n)
    (h : Through Fetch.Kept it.audio (it.audioFirst r).2 n) :
    demuxAudio n ∈ (r.fetchAudio c it).2 := by
  have htarget : it.m.audioTarget it.liveEdge = n := by
    unfold DashManifest.audioTarget
    rw [hedge, if_neg (by omega)]
  unfold fetchAudio
  unfold Iteration.audioFirst at h
  rw [if_pos hc]
  rw [htarget] at h ⊢
  obtain ⟨hmark, hge, hle⟩ := audioResume_before it.m.start_nonneg hstart hmax
    (start_le_windowBottom it.m it.liveEdge r.audioLiveBufferUs) hlast
  exact demux_of_audioLoop hmax (le_refl n) it.audio hge hle hmark h

/-- An iteration that ends the clip has demuxed its last segments, or found them
demuxed. -/
theorem complete_of_iteration (hmax : n < intMax) (htotal : it.m.totalSegments = n)
    (hit : it.Finishes c n r) (h : Backed n r t) (heos : (r.iteration c it).1.eosReached = true) :
    demuxVideo n ∈ t ++ (r.iteration c it).2 ∧
      (c.hasInitA = true → demuxAudio n ∈ t ++ (r.iteration c it).2) := by
  have hint := intMax_eq
  obtain ⟨-, hpos, hlast⟩ := of_decide_eq_true heos
  rw [htotal] at hpos hlast
  rw [toInt_of_range (x := n) (by omega) (by omega), toInt_of_range (by omega) (by omega)] at hlast
  obtain ⟨⟨k, hk⟩, -⟩ := fetchAudio_frame c r it
  have hend : it.NearEnd r n ∧ (it.videoFirst r ≤ n ∨ r.lastVnum = n) := by
    have := nearEnd_of_fetchVideo (by omega) hmax htotal hit.start_le hlast
    rw [hk] at this
    exact this
  have hevents : (r.iteration c it).2 =
      (r.fetchAudio c it).2 ++ ((r.fetchAudio c it).1.fetchVideo c it).2 := rfl
  rw [hevents]
  constructor
  · obtain hfirst | hmark := hend.2
    · obtain ⟨hhi, hthrough⟩ := hit.video htotal hend.1
      refine List.mem_append_right _ (List.mem_append_right _ ?_)
      rw [hk]
      exact demux_of_fetchVideo (r := { r with lastAnum := k }) hmax hit.kept hfirst hhi hthrough
    · exact List.mem_append_left _ (h.video hmark)
  · intro hc
    obtain hmark | ⟨hbehind, hedge, hthrough⟩ := hit.audio htotal hend.1 hc
    · exact List.mem_append_left _ (h.audio hmark)
    · have hrange := liveEdge_range it.m it.now
      rw [htotal, toInt_of_range (by omega) (by omega)] at hrange
      unfold Iteration.liveEdge at hedge
      refine List.mem_append_right _ (List.mem_append_left _ ?_)
      exact demux_of_fetchAudio hmax hit.start_le hc hbehind (show it.m.liveEdge it.now = n by omega)
        hthrough

end DashReader

/-! ## the end of a run -/

/-- The promise: whenever a run over segments numbered from 1, all of one length,
ends with the clip declared over, the last segment of the clip was demuxed, in
video and, with an audio track, in audio. -/
def EndIsComplete : Prop :=
  ∀ (c : DashSession) (its : List Iteration) (it : Iteration) (s : DashReader × List ReaderEvent),
    (∀ i ∈ its ++ [it], 1 ≤ i.m.startNumber ∧ i.m.segDurationUs = it.m.segDurationUs) →
    Run.exec (DashReader.step c) (DashReader.start, []) (its ++ [it]) = some s →
    s.1.eosReached = true →
    demuxVideo it.m.totalSegments ∈ s.2 ∧
      (c.hasInitA = true → demuxAudio it.m.totalSegments ∈ s.2)

/-- A clip of ten segments, after its end; the request for the tenth fails. -/
def tenthFails : Iteration where
  m := .oneSecond 1 10000000 true
  now := 20000000
  audio := []
  video := List.replicate 3 (.got 1000 true) ++ [.failed]

/-- The clip is over with its tenth segment missing. -/
theorem endIsComplete_fails : ¬ EndIsComplete := by
  intro h
  have hend := (h ⟨true, false⟩ [] tenthFails _ (by decide) rfl (by decide +kernel)).1
  exact absurd hend (by decide +kernel)

/-- **End of content.**  A run whose iterations finish the clip of its last
manifest, and that ends with the clip declared over, has demuxed the last
segment of the clip, in video and, with an audio track, in audio. -/
theorem eos_complete (c : DashSession) (its : List Iteration) (it : Iteration)
    (s : DashReader × List ReaderEvent) (hmax : it.m.totalSegments < intMax)
    (hok : Run.Along (DashReader.step c) (fun s i => i.Finishes c it.m.totalSegments s.1)
      (DashReader.start, []) (its ++ [it]))
    (h : Run.exec (DashReader.step c) (DashReader.start, []) (its ++ [it]) = some s)
    (heos : s.1.eosReached = true) :
    demuxVideo it.m.totalSegments ∈ s.2 ∧
      (c.hasInitA = true → demuxAudio it.m.totalSegments ∈ s.2) := by
  obtain ⟨u, hu, hlast⟩ := (Run.exec_append_eq_some _).mp h
  obtain ⟨hits, hend⟩ := Run.along_append.mp hok
  obtain ⟨v, hv, hs⟩ := (Run.exec_cons_eq_some _).mp hlast
  obtain rfl := Option.some.inj hs
  obtain rfl := DashReader.of_step hv
  have hpos : 0 < it.m.totalSegments := (of_decide_eq_true heos).2.1
  have hbacked : DashReader.Backed it.m.totalSegments u.1 u.2 := by
    refine Run.exec_invariant (fun s : DashReader × List ReaderEvent =>
      DashReader.Backed it.m.totalSegments s.1 s.2) ?_ ?_ hits hu
    · intro s i s' hs hi hsi
      obtain rfl := DashReader.of_step hsi
      exact DashReader.backed_iteration (by omega) hi hs
    · exact ⟨fun hv => absurd hv (by show (-1 : Int) ≠ _; omega),
        fun ha => absurd ha (by show (-1 : Int) ≠ _; omega)⟩
  exact DashReader.complete_of_iteration hmax rfl (hend u hu).1 hbacked heos

/-- The clip while it is live, fetched up to the segment still being written. -/
def liveClip : Iteration where
  m := .oneSecond 1 0 false
  now := 9500000
  audio := List.replicate 4 (.got 1000 true)
  video := List.replicate 5 (.got 1000 true)

/-- The same clip after its end: the last audio segment is still to come. -/
def endedClip : Iteration where
  m := tenthFails.m
  now := 10500000
  audio := [.got 1000 true]
  video := []

theorem eos_complete_lateAudio :
    Run.Along (DashReader.step ⟨true, true⟩)
      (fun s i => i.Finishes ⟨true, true⟩ endedClip.m.totalSegments s.1) (DashReader.start, [])
      ([liveClip] ++ [endedClip]) ∧
    ∃ s, Run.exec (DashReader.step ⟨true, true⟩) (DashReader.start, [])
        ([liveClip] ++ [endedClip]) = some s ∧ s.1.eosReached = true ∧
      demuxVideo endedClip.m.totalSegments ∈ s.2 ∧
      ((true = true) → demuxAudio endedClip.m.totalSegments ∈ s.2) := by
  have hkept : ∀ it ∈ [liveClip, endedClip], DashSession.Keeps ⟨true, true⟩ it.video := by
    simp [liveClip, endedClip, DashSession.Keeps]
  have hok : Run.Along (DashReader.step ⟨true, true⟩)
      (fun s i => i.Finishes ⟨true, true⟩ endedClip.m.totalSegments s.1) (DashReader.start, [])
      ([liveClip] ++ [endedClip]) := by
    have hlive : liveClip.m.totalSegments ≠ endedClip.m.totalSegments := by decide
    refine ⟨⟨by decide, hkept _ (by simp), fun h => absurd h hlive, fun h => absurd h hlive⟩,
      fun s hs => ?_⟩
    obtain rfl := Option.some.inj hs
    refine ⟨⟨by decide, hkept _ (by simp), fun _ _ => ?_, fun _ _ _ => Or.inr ?_⟩, fun _ _ => trivial⟩
    · decide +kernel
    · decide +kernel
  refine ⟨hok, _, rfl, by decide +kernel, ?_⟩
  exact eos_complete ⟨true, true⟩ [liveClip] endedClip _ (by decide) hok rfl (by decide +kernel)

end Vmc
