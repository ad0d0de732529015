import Vmc.Client.Manifest

/-!
# Vmc.Client.ManifestBounds

How far the manifest loader reads.  `http_get` returns the bytes of the body
and their number, with no NUL behind them; `dash_load_manifest` scans the block
as a C string, so its text goes on behind the body up to the first NUL there.

A scan that finds what it looks for inside the body reads the same whatever
follows (`strstr_append`, `leadingInt_append`); one that does not, goes on into
memory that is none of its business.  `ScansEnd` says of a body that every scan
ends inside it.
-/

namespace Vmc

open Bytes CInt

/-! ## the loader and its out-parameter -/

variable {Double : Type} (lib : DoubleLib Double)

/-- A manifest after `memset`. -/
def LoadedManifest.zero : LoadedManifest := ⟨[], 0, 0, 0, 0, 0, 0, false, 0, 0⟩

/-- `dash_load_manifest` on the text of the manifest: the value returned, and
`*m` at that point. -/
def loadManifest (url s : List UInt8) : Except LoadError (Int × LoadedManifest) :=
  let m : LoadedManifest :=
    { LoadedManifest.zero with
      staticMpd := isStatic s
      durationUs := timeAttr s "mediaPresentationDuration=\"" (parseDurationUs lib) }
  if (behind s "availabilityStartTime=\"").isNone ∧ isStatic s = false then .ok (-1, m)
  else do
    let segUs ← segDuration s
    let fps ← frameRate s
    let m := { m with
      availStartUs := timeAttr s "availabilityStartTime=\"" (parseIso8601 lib)
      publishTimeUs := timeAttr s "publishTime=\"" (parseIso8601 lib)
      timeshiftDepthUs := timeAttr s "timeShiftBufferDepth=\"" (parseDurationUs lib)
      startNumber := (behind s "startNumber=\"").elim 0 atoi
      segDurationUs := segUs
      frameRate := fps }
    match baseUrl url with
    | .error .refused => .ok (-1, m)
    | .error e => .error e
    | .ok base =>
        let m := { m with
          base := base
          publishTimeUs := if m.publishTimeUs ≤ 0 then m.availStartUs else m.publishTimeUs
          timeshiftDepthUs := if m.timeshiftDepthUs ≤ 0 then 10000000 else m.timeshiftDepthUs }
        let window ← windowSegments m.timeshiftDepthUs segUs
        let m := { m with windowSegments := window }
        if segUs ≤ 0 then .ok (-1, m)
        else if isStatic s = false ∧ m.availStartUs ≤ 0 then .ok (-1, m)
        else .ok (0, m)

/-- `parseManifest` is what the caller sees of it: `*m` is used after 0 only. -/
theorem parseManifest_eq (url s : List UInt8) :
    parseManifest lib url s =
      (loadManifest lib url s).bind fun r => if r.1 = 0 then .ok r.2 else .error .refused := by
  unfold parseManifest loadManifest
  by_cases hgate : (behind s "availabilityStartTime=\"").isNone ∧ isStatic s = false
  · simp only [if_pos hgate]
    rfl
  · simp only [if_neg hgate]
    cases segDuration s with
    | error e => rfl
    | ok segUs =>
        cases frameRate s with
        | error e => rfl
        | ok fps =>
            cases baseUrl url with
            | error e => cases e <;> rfl
            | ok base =>
                simp only [bind, Except.bind]
                cases windowSegments _ segUs with
                | error e => rfl
                | ok window =>
                    simp only
                    split
                    · rfl
                    · split <;> rfl

/-- `dash_load_manifest` on the body `http_get` returns, with `mem` behind it on
the heap.  There is no block for an empty body. -/
def loadFromHeap (url body mem : List UInt8) : Except LoadError (Int × LoadedManifest) :=
  if body = [] then .ok (-1, LoadedManifest.zero) else loadManifest lib url (cstr (body ++ mem))

/-! ## scans that end inside the text -/

/-- What `strtol` leaves of a text. -/
def numberTail (p : List UInt8) : List UInt8 :=
  match p.dropWhile isSpace with
  | 45 :: ds => ds.dropWhile isDecimal
  | 43 :: ds => ds.dropWhile isDecimal
  | ds => ds.dropWhile isDecimal

/-- The number at the front of a text ends inside it. -/
def NumberEnds (p : List UInt8) : Prop := numberTail p ≠ []

/-- The attribute is there, with its closing quote. -/
def QuoteEnds (s : List UInt8) (name : String) : Prop := ∃ p, behind s name = some p ∧ 34 ∈ p

/-- `startNumber` is there, and its number ends. -/
def StartNumberEnds (s : List UInt8) : Prop :=
  ∃ p, behind s "startNumber=\"" = some p ∧ NumberEnds p

/-- The timescale and the `d` of a segment are there, and the numbers end that
are read of them. -/
def SegmentEnds (s : List UInt8) : Prop :=
  ∃ ts d, strstr s (ascii "timescale=\"") = some ts ∧ segmentD ts = some d ∧
    NumberEnds (ts.drop 11) ∧ (0 < atoi (ts.drop 11) → NumberEnds d)

/-- The frame rate is there, with a slash somewhere behind it, and both numbers
end. -/
def FrameRateEnds (s : List UInt8) : Prop :=
  ∃ fr, behind s "frameRate=\"" = some fr ∧ NumberEnds fr ∧ 47 ∈ fr ∧
    NumberEnds ((fr.dropWhile (· ≠ 47)).drop 1)

/-- Every scan of `dash_load_manifest` ends inside the body. -/
@[mk_iff]
structure ScansEnd (s : List UInt8) : Prop where
  static : isStatic s = true
  duration : QuoteEnds s "mediaPresentationDuration=\""
  avail : QuoteEnds s "availabilityStartTime=\""
  publish : QuoteEnds s "publishTime=\""
  depth : QuoteEnds s "timeShiftBufferDepth=\""
  start : StartNumberEnds s
  segment : SegmentEnds s
  frameRate : FrameRateEnds s

instance (p : List UInt8) : Decidable (NumberEnds p) := inferInstanceAs (Decidable (_ ≠ _))

instance (s : List UInt8) (name : String) : Decidable (QuoteEnds s name) :=
  inferInstanceAs (Decidable (∃ p ∈ behind s name, 34 ∈ p))

instance (s : List UInt8) : Decidable (StartNumberEnds s) :=
  inferInstanceAs (Decidable (∃ p ∈ behind s "startNumber=\"", NumberEnds p))

instance (s : List UInt8) : Decidable (SegmentEnds s) :=
  decidable_of_iff (∃ ts ∈ strstr s (ascii "timescale=\""), ∃ d ∈ segmentD ts,
    NumberEnds (ts.drop 11) ∧ (0 < atoi (ts.drop 11) → NumberEnds d))
    ⟨fun ⟨ts, hts, d, hd, h⟩ => ⟨ts, d, hts, hd, h⟩, fun ⟨ts, d, hts, hd, h⟩ => ⟨ts, hts, d, hd, h⟩⟩

instance (s : List UInt8) : Decidable (FrameRateEnds s) :=
  inferInstanceAs (Decidable (∃ fr ∈ behind s "frameRate=\"", NumberEnds fr ∧ 47 ∈ fr ∧
    NumberEnds ((fr.dropWhile (· ≠ 47)).drop 1)))

instance (s : List UInt8) : Decidable (ScansEnd s) := decidable_of_iff' _ (scansEnd_iff s)

/-- A first byte that is no sign. -/
theorem leadingInt_unsigned {p q : List UInt8} {c : UInt8} (hq : p.dropWhile isSpace = c :: q)
    (hminus : c ≠ 45) (hplus : c ≠ 43) :
    leadingInt p = Digits.value 10 ((c :: q).takeWhile isDecimal) := by
  rw [leadingInt, hq]
  split
  · rename_i heq
    exact absurd (List.cons.inj heq).1 hminus
  · rename_i heq
    exact absurd (List.cons.inj heq).1 hplus
  · rfl

theorem numberTail_unsigned {p q : List UInt8} {c : UInt8} (hq : p.dropWhile isSpace = c :: q)
    (hminus : c ≠ 45) (hplus : c ≠ 43) : numberTail p = (c :: q).dropWhile isDecimal := by
  rw [numberTail, hq]
  split
  · rename_i heq
    exact absurd (List.cons.inj heq).1 hminus
  · rename_i heq
    exact absurd (List.cons.inj heq).1 hplus
  · rfl

/-- A number that ends inside the text is read the same whatever follows. -/
theorem leadingInt_append {p : List UInt8} (h : NumberEnds p) (t : List UInt8) :
    leadingInt (p ++ t) = leadingInt p := by
  have hspace : p.dropWhile isSpace ≠ [] := by
    intro hnil
    rw [NumberEnds, numberTail, hnil] at h
    exact h rfl
  have happ := dropWhile_append_of_ne hspace t
  cases hq : p.dropWhile isSpace with
  | nil => exact absurd hq hspace
  | cons c q =>
      rw [hq, List.cons_append] at happ
      by_cases hminus : c = 45
      · subst hminus
        rw [NumberEnds, numberTail, hq] at h
        rw [leadingInt, leadingInt, happ, hq]
        exact congrArg (fun ds => -(Digits.value 10 ds : Int)) (takeWhile_append_of_ne h t)
      · by_cases hplus : c = 43
        · subst hplus
          rw [NumberEnds, numberTail, hq] at h
          rw [leadingInt, leadingInt, happ, hq]
          exact congrArg (fun ds => (Digits.value 10 ds : Int)) (takeWhile_append_of_ne h t)
        · rw [NumberEnds, numberTail_unsigned hq hminus hplus] at h
          rw [leadingInt_unsigned happ hminus hplus, leadingInt_unsigned hq hminus hplus,
            ← List.cons_append, takeWhile_append_of_ne h]

theorem atoi_append {p : List UInt8} (h : NumberEnds p) (t : List UInt8) :
    atoi (p ++ t) = atoi p := by
  rw [atoi, strtol10, leadingInt_append h]
  rfl

/-- What `strstr` returns begins with the pattern. -/
theorem prefix_of_strstr {s pat r : List UInt8} (h : strstr s pat = some r) :
    pat <+: r ∧ r.length ≤ s.length := by
  induction s with
  | nil =>
      rw [strstr] at h
      split at h
      · cases h
        rename_i hnil
        rw [hnil]
        exact ⟨List.nil_prefix, Nat.le_refl _⟩
      · cases h
  | cons c cs ih =>
      rw [strstr] at h
      split at h
      · obtain rfl := Option.some.inj h
        exact ⟨List.isPrefixOf_iff_prefix.mp ‹_›, Nat.le_refl _⟩
      · obtain ⟨hpre, hlen⟩ := ih h
        exact ⟨hpre, Nat.le_succ_of_le hlen⟩

/-- An occurrence inside the text is the first one whatever follows. -/
theorem strstr_append {s pat r : List UInt8} (h : strstr s pat = some r) (t : List UInt8) :
    strstr (s ++ t) pat = some (r ++ t) := by
  induction s with
  | nil =>
      rw [strstr] at h
      split at h
      · cases h
        rename_i hnil
        rw [hnil]
        cases t <;> rfl
      · cases h
  | cons c cs ih =>
      rw [strstr] at h
      rw [List.cons_append, strstr]
      split at h
      · obtain rfl := Option.some.inj h
        rename_i hpre
        refine if_pos (List.isPrefixOf_iff_prefix.mpr ?_)
        exact (List.isPrefixOf_iff_prefix.mp hpre).trans (List.prefix_append _ t)
      · rename_i hpre
        -- the pattern is no longer than `cs`, so it does not reach into `t`
        have hlen : pat.length ≤ cs.length :=
          (prefix_of_strstr h).1.length_le.trans (prefix_of_strstr h).2
        rw [if_neg, ih h]
        intro hover
        refine hpre (List.isPrefixOf_iff_prefix.mpr ?_)
        exact List.prefix_of_prefix_length_le (List.isPrefixOf_iff_prefix.mp hover)
          (List.prefix_append (c :: cs) t) (Nat.le_succ_of_le hlen)

theorem behind_append {s p : List UInt8} {name : String} (h : behind s name = some p)
    (t : List UInt8) : behind (s ++ t) name = some (p ++ t) := by
  obtain ⟨r, hr, rfl⟩ := Option.map_eq_some_iff.mp h
  rw [behind, strstr_append hr, Option.map_some,
    List.drop_append_of_le_length (prefix_of_strstr hr).1.length_le]

theorem strchr_append {s : List UInt8} {c : UInt8} (h : c ∈ s) (t : List UInt8) :
    strchr (s ++ t) c = some (s.dropWhile (· ≠ c) ++ t) := by
  rw [strchr, if_pos (List.mem_append_left t h),
    dropWhile_append_of_ne (dropWhile_ne_nil_of_mem h)]

theorem quoted_append {s : List UInt8} (h : 34 ∈ s) (t : List UInt8) :
    quoted (s ++ t) = quoted s := by
  rw [quoted, quoted, strchr_append h, strchr, if_pos h,
    takeWhile_append_of_ne (dropWhile_ne_nil_of_mem h)]
  rfl

/-! ## the fields -/

theorem isStatic_append {s : List UInt8} (h : isStatic s = true) (t : List UInt8) :
    isStatic (s ++ t) = true := by
  obtain ⟨r, hr⟩ := Option.isSome_iff_exists.mp h
  rw [isStatic, strstr_append hr]
  rfl

theorem timeAttr_append {s : List UInt8} {name : String} (h : QuoteEnds s name)
    (parse : List UInt8 → Int) (t : List UInt8) :
    timeAttr (s ++ t) name parse = timeAttr s name parse := by
  obtain ⟨p, hp, hquote⟩ := h
  rw [timeAttr, timeAttr, behind_append hp, hp, Option.bind_some, Option.bind_some,
    quoted_append hquote]

theorem startNumber_append {s : List UInt8} (h : StartNumberEnds s) (t : List UInt8) :
    (behind (s ++ t) "startNumber=\"").elim 0 atoi = (behind s "startNumber=\"").elim 0 atoi := by
  obtain ⟨p, hp, hends⟩ := h
  rw [behind_append hp, hp, Option.elim_some, Option.elim_some, atoi_append hends]

theorem segmentD_append {ts d : List UInt8} (h : segmentD ts = some d) (t : List UInt8) :
    segmentD (ts ++ t) = some (d ++ t) := by
  obtain ⟨stl, hstl, hd⟩ := Option.bind_eq_some_iff.mp h
  rw [segmentD, strstr_append hstl, Option.bind_some, behind_append hd]

theorem segDuration_append {s : List UInt8} (h : SegmentEnds s) (t : List UInt8) :
    segDuration (s ++ t) = segDuration s := by
  obtain ⟨ts, d, hts, hd, hscale, hdur⟩ := h
  have hlen : 11 ≤ ts.length := (prefix_of_strstr hts).1.length_le
  have hdrop : (ts ++ t).drop 11 = ts.drop 11 ++ t := List.drop_append_of_le_length hlen
  simp only [segDuration, strstr_append hts, hts, segmentD_append hd, hd, hdrop,
    atoi_append hscale]
  by_cases hpos : 0 < atoi (ts.drop 11)
  · rw [atoi_append (hdur hpos)]
  · rw [if_neg (fun h => hpos h.1), if_neg (fun h => hpos h.1)]

theorem frameDen_append {fr : List UInt8} (hslash : 47 ∈ fr)
    (hends : NumberEnds ((fr.dropWhile (· ≠ 47)).drop 1)) (t : List UInt8) :
    frameDen (fr ++ t) = frameDen fr := by
  have hlen : 1 ≤ (fr.dropWhile (· ≠ 47)).length :=
    List.length_pos_of_ne_nil (dropWhile_ne_nil_of_mem hslash)
  have hne : (fr.dropWhile (· ≠ 47)).drop 1 ≠ [] := by
    intro hnil
    rw [hnil] at hends
    exact hends rfl
  have hne' : (fr.dropWhile (· ≠ 47)).drop 1 ++ t ≠ [] := fun hnil =>
    hne (List.append_eq_nil_iff.mp hnil).1
  have hfind : strchr fr 47 = some (fr.dropWhile (· ≠ 47)) := if_pos hslash
  simp only [frameDen, strchr_append hslash, hfind, Option.map_some, Option.getD_some,
    List.drop_append_of_le_length hlen]
  rw [if_neg hne', if_neg hne, atoi_append hends]

theorem frameRate_append {s : List UInt8} (h : FrameRateEnds s) (t : List UInt8) :
    frameRate (s ++ t) = frameRate s := by
  obtain ⟨fr, hfr, hnum, hslash, hden⟩ := h
  simp only [Vmc.frameRate, behind_append hfr, hfr, atoi_append hnum, frameDen_append hslash hden]

/-- **One text**: what stands behind a body in which every scan ends makes no
difference. -/
theorem loadManifest_append {s : List UInt8} (h : ScansEnd s) (url t : List UInt8) :
    loadManifest lib url (s ++ t) = loadManifest lib url s := by
  have hstatic := isStatic_append h.static t
  unfold loadManifest
  rw [hstatic, h.static, timeAttr_append h.duration, timeAttr_append h.avail,
    timeAttr_append h.publish, timeAttr_append h.depth, startNumber_append h.start,
    segDuration_append h.segment, frameRate_append h.frameRate]
  simp only [Bool.true_eq_false, and_false, if_false]

/-! ## scans that run on -/

theorem strstr_of_prefix {s pat : List UInt8} (h : pat <+: s) : strstr s pat = some s := by
  cases s with
  | nil => exact if_pos (List.prefix_nil.mp h)
  | cons c cs => exact if_pos (List.isPrefixOf_iff_prefix.mpr h)

/-- A pattern behind the text is found, here or before. -/
theorem strstr_append_self (s pat : List UInt8) : (strstr (s ++ pat) pat).isSome = true := by
  induction s with
  | nil =>
      rw [List.nil_append, strstr_of_prefix (List.prefix_refl pat)]
      rfl
  | cons c cs ih =>
      rw [List.cons_append, strstr]
      split
      · rfl
      · exact ih

/-- A pattern that ends in a byte it has nowhere else does not begin before `t`,
if the text does not have it. -/
theorem strstr_fresh {s pre : List UInt8} {q : UInt8} (hq : q ∉ pre)
    (h : strstr s (pre ++ [q]) = none) (t : List UInt8) :
    strstr (s ++ (pre ++ [q] ++ t)) (pre ++ [q]) = some (pre ++ [q] ++ t) := by
  induction s with
  | nil => exact strstr_of_prefix (List.prefix_append _ t)
  | cons c cs ih =>
      rw [strstr] at h
      split at h
      · cases h
      · rename_i hpre
        rw [List.cons_append, strstr, if_neg, ih h]
        intro hover
        have hover := List.isPrefixOf_iff_prefix.mp hover
        rw [← List.cons_append] at hover
        by_cases hlen : (pre ++ [q]).length ≤ (c :: cs).length
        · exact hpre (List.isPrefixOf_iff_prefix.mpr
            (List.prefix_of_prefix_length_le hover (List.prefix_append _ _) hlen))
        · -- the last byte of the pattern would stand inside `pre`
          simp only [List.length_append, List.length_cons, List.length_nil] at hlen
          obtain ⟨u, hu⟩ := hover
          have hlast : ((c :: cs) ++ (pre ++ [q] ++ t))[pre.length]? = some q := by
            rw [← hu]
            simp
          rw [List.getElem?_append_right (by simp; omega), List.append_assoc,
            List.getElem?_append_left (by simp; omega)] at hlast
          exact hq (List.mem_of_getElem? hlast)

theorem behind_missing {s : List UInt8} {name : String} (h : strstr s (ascii name) = none) :
    behind s name = none := by
  rw [behind, h]
  rfl

/-- An attribute the text does not have is read from behind it. -/
theorem behind_fresh {s : List UInt8} {name stem : String} (hname : ascii name = ascii stem ++ [34])
    (hstem : 34 ∉ ascii stem) (h : strstr s (ascii name) = none) (t : List UInt8) :
    behind (s ++ (ascii name ++ t)) name = some t := by
  rw [hname] at h
  rw [behind, hname, strstr_fresh hstem h, Option.map_some, List.drop_left]

/-- What is in `*m` when the loader has got past the gate and returns.  Behind
the gate two of the times are replaced by a default if they are not positive. -/
structure Stores (s : List UInt8) (m : LoadedManifest) : Prop where
  duration : m.durationUs = timeAttr s "mediaPresentationDuration=\"" (parseDurationUs lib)
  avail : m.availStartUs = timeAttr s "availabilityStartTime=\"" (parseIso8601 lib)
  publish : timeAttr s "publishTime=\"" (parseIso8601 lib) ≤ 0 ∨
    timeAttr s "publishTime=\"" (parseIso8601 lib) = m.publishTimeUs
  depth : timeAttr s "timeShiftBufferDepth=\"" (parseDurationUs lib) ≤ 0 ∨
    timeAttr s "timeShiftBufferDepth=\"" (parseDurationUs lib) = m.timeshiftDepthUs
  start : m.startNumber = (behind s "startNumber=\"").elim 0 atoi
  segment : segDuration s = .ok m.segDurationUs
  frameRate : frameRate s = .ok m.frameRate

theorem le_zero_or_eq_default (v d : Int) : v ≤ 0 ∨ v = if v ≤ 0 then d else v := by
  split
  · next h => exact .inl h
  · exact .inr rfl

theorem loadManifest_stores {url s : List UInt8} {st : Int} {m : LoadedManifest}
    (h : loadManifest lib url s = .ok (st, m)) :
    m.staticMpd = isStatic s ∧ (isStatic s = true → Stores lib s m) := by
  unfold loadManifest at h
  by_cases hgate : (behind s "availabilityStartTime=\"").isNone ∧ isStatic s = false
  · rw [if_pos hgate] at h
    cases h
    exact ⟨rfl, fun hstatic => absurd (hgate.2.symm.trans hstatic) (by decide)⟩
  · rw [if_neg hgate] at h
    cases hseg : segDuration s with
    | error e =>
        rw [hseg] at h
        cases h
    | ok segUs =>
        cases hfps : frameRate s with
        | error e =>
            rw [hseg, hfps] at h
            cases h
        | ok fps =>
            rw [hseg, hfps] at h
            simp only [bind, Except.bind] at h
            split at h
            · cases h
              exact ⟨rfl, fun _ => ⟨rfl, rfl, .inr rfl, .inr rfl, rfl, hseg, hfps⟩⟩
            · cases h
            · split at h
              · cases h
              · split at h
                · cases h
                  exact ⟨rfl, fun _ => ⟨rfl, rfl, le_zero_or_eq_default _ _,
                    le_zero_or_eq_default _ _, rfl, hseg, hfps⟩⟩
                · split at h
                  · cases h
                    exact ⟨rfl, fun _ => ⟨rfl, rfl, le_zero_or_eq_default _ _,
                      le_zero_or_eq_default _ _, rfl, hseg, hfps⟩⟩
                  · cases h
                    exact ⟨rfl, fun _ => ⟨rfl, rfl, le_zero_or_eq_default _ _,
                      le_zero_or_eq_default _ _, rfl, hseg, hfps⟩⟩

/-! ## the manifest and the memory behind it -/

/-- The status and the manifest do not depend on the memory behind the body. -/
def ReadsBodyOnly (url body : List UInt8) : Prop :=
  ∀ mem mem', 0 ∈ mem → 0 ∈ mem' →
    loadFromHeap lib url body mem = loadFromHeap lib url body mem'

/-- The attribute is there with its closing quote, or whatever text is closed
behind it reads as an `ok` value. -/
def TimeSettled (s : List UInt8) (name : String) (parse : List UInt8 → Int) (ok : Int → Prop) :
    Prop :=
  QuoteEnds s name ∨
    ∀ x, 34 ∉ x → 0 ∉ x → ok (parse (((behind s name).getD [] ++ x).take 63))

/-- What a body has for which the loader stores `m` whatever follows.  A time or
a start number that does not end inside it is read as what is in `m` all the
same. -/
structure Settled (s : List UInt8) (m : LoadedManifest) : Prop where
  static : isStatic s = true
  duration : TimeSettled s "mediaPresentationDuration=\"" (parseDurationUs lib)
    fun v => v = m.durationUs
  avail : TimeSettled s "availabilityStartTime=\"" (parseIso8601 lib) fun v => v = m.availStartUs
  publish : TimeSettled s "publishTime=\"" (parseIso8601 lib)
    fun v => v ≤ 0 ∨ v = m.publishTimeUs
  depth : TimeSettled s "timeShiftBufferDepth=\"" (parseDurationUs lib)
    fun v => v ≤ 0 ∨ v = m.timeshiftDepthUs
  start : ∃ p, behind s "startNumber=\"" = some p ∧
    ∀ t, 0 ∉ t → atoi (p ++ t) = m.startNumber
  timescale : (strstr s (ascii "timescale=\"")).isSome = true
  frameRate : (strstr s (ascii "frameRate=\"")).isSome = true

theorem cstr_append_of_mem {body : List UInt8} (h : 0 ∈ body) (mem : List UInt8) :
    cstr (body ++ mem) = cstr body :=
  takeWhile_append_of_ne (dropWhile_ne_nil_of_mem h) mem

theorem cstr_append_of_notMem {body : List UInt8} (h : 0 ∉ body) (mem : List UInt8) :
    cstr (body ++ mem) = body ++ cstr mem := by
  refine List.takeWhile_append_of_pos fun c hc => ?_
  simp only [ne_eq, decide_not, Bool.not_eq_eq_eq_not, Bool.not_true, decide_eq_false_iff_not]
  rintro rfl
  exact h hc

theorem readsBodyOnly_of_scansEnd {body : List UInt8} (h : ScansEnd body) (h0 : 0 ∉ body)
    (url : List UInt8) : ReadsBodyOnly lib url body := by
  intro mem mem' _ _
  rw [loadFromHeap, loadFromHeap, cstr_append_of_notMem h0, cstr_append_of_notMem h0,
    loadManifest_append lib h, loadManifest_append lib h]

/-- Every text that may stand behind the body is one the loader reads. -/
theorem ReadsBodyOnly.text {url body : List UInt8} (h : ReadsBodyOnly lib url body)
    (hne : body ≠ []) (h0 : 0 ∉ body) {t : List UInt8} (ht : 0 ∉ t) :
    loadManifest lib url (body ++ t) = loadFromHeap lib url body [0] := by
  rw [h [0] (t ++ [0]) (by simp) (by simp), loadFromHeap, if_neg hne, cstr_append_of_notMem h0,
    cstr_append_of_notMem ht]
  simp [cstr]

/-- A value with its closing quote. -/
theorem quoted_closed {x : List UInt8} (h : 34 ∉ x) : quoted (x ++ [34]) = some (x.take 63) := by
  have hread : (x ++ [34]).takeWhile (· ≠ 34) = x := by
    refine takeWhile_append_of_stop (fun c hc => ?_) (by simp)
    simp only [ne_eq, decide_not, Bool.not_eq_eq_eq_not, Bool.not_true, decide_eq_false_iff_not]
    rintro rfl
    exact h hc
  rw [quoted, strchr, if_pos (by simp), Option.map_some, hread]

/-- What is true of a time whatever follows. -/
theorem timeSettled_of_read {s : List UInt8} {name stem : String}
    (hname : ascii name = ascii stem ++ [34]) (hstem : 34 ∉ ascii stem) (h0 : 0 ∉ ascii name)
    {parse : List UInt8 → Int} {ok : Int → Prop}
    (hread : ∀ t, 0 ∉ t → ok (timeAttr (s ++ t) name parse)) : TimeSettled s name parse ok := by
  cases hfind : behind s name with
  | none =>
      refine .inr fun x hquote hnul => ?_
      have hmissing : strstr s (ascii name) = none := by simpa [behind] using hfind
      have hok := hread (ascii name ++ (x ++ [34])) (by simp [h0, hnul])
      rw [timeAttr, behind_fresh hname hstem hmissing, Option.bind_some,
        quoted_closed hquote] at hok
      rw [hfind]
      exact hok
  | some p =>
      by_cases hclosed : 34 ∈ p
      · exact .inl ⟨p, hfind, hclosed⟩
      · refine .inr fun x hquote hnul => ?_
        have hok := hread (x ++ [34]) (by simp [hnul])
        rw [timeAttr, behind_append hfind, Option.bind_some, ← List.append_assoc,
          quoted_closed (by simp [hclosed, hquote])] at hok
        rw [hfind]
        exact hok

/-- A timescale and a segment of two units. -/
def twoSeconds : List UInt8 := ascii "timescale=\"1\"<S d=\"2\""

section run_on

variable {lib} {url body : List UInt8} {st : Int} {m : LoadedManifest}
  (hread : ∀ t, 0 ∉ t → loadManifest lib url (body ++ t) = .ok (st, m))

include hread

theorem static_of_read : isStatic body = true := by
  have hbody := (loadManifest_stores lib (hread [] (by simp))).1
  have hmore := (loadManifest_stores lib (hread (ascii "type=\"static\"") (by decide))).1
  rw [List.append_nil] at hbody
  rw [← hbody, hmore]
  exact strstr_append_self body (ascii "type=\"static\"")

/-- What the loader stores with `t` behind the body. -/
theorem stores_of_read {t : List UInt8} (ht : 0 ∉ t) : Stores lib (body ++ t) m :=
  (loadManifest_stores lib (hread t ht)).2 (isStatic_append (static_of_read hread) t)

theorem start_of_read : ∃ p, behind body "startNumber=\"" = some p ∧
    ∀ t, 0 ∉ t → atoi (p ++ t) = m.startNumber := by
  cases hfind : behind body "startNumber=\"" with
  | some p =>
      refine ⟨p, rfl, fun t ht => ?_⟩
      rw [(stores_of_read hread ht).start, behind_append hfind]
      rfl
  | none =>
      have hmissing : strstr body (ascii "startNumber=\"") = none := by
        simpa [behind] using hfind
      have hbody := (stores_of_read hread (t := []) (by simp)).start
      have hmore := (stores_of_read hread (t := ascii "startNumber=\"" ++ ascii "1")
        (by decide)).start
      rw [List.append_nil, hfind] at hbody
      rw [@behind_fresh body "startNumber=\"" "startNumber=" (by decide) (by decide) hmissing]
        at hmore
      exact absurd (hbody.symm.trans hmore) (by decide)

theorem timescale_of_read : (strstr body (ascii "timescale=\"")).isSome = true := by
  cases hfind : strstr body (ascii "timescale=\"") with
  | some r => rfl
  | none =>
      have hbody := (stores_of_read hread (t := []) (by simp)).segment
      have hmore := (stores_of_read hread (t := twoSeconds) (by decide)).segment
      have hfresh : strstr (body ++ twoSeconds) (ascii "timescale=\"") = some twoSeconds :=
        @strstr_fresh body (ascii "timescale=") 34 (by decide) hfind (ascii "1\"<S d=\"2\"")
      have halone : strstr twoSeconds (ascii "timescale=\"") = some twoSeconds := by decide
      have hshort : segDuration (body ++ twoSeconds) = segDuration twoSeconds := by
        rw [segDuration, segDuration, hfresh, halone]
      have hseg : segDuration twoSeconds = .ok 2000000 := by decide
      rw [List.append_nil, segDuration, hfind] at hbody
      rw [hshort, hseg] at hmore
      exact absurd (hbody.trans hmore.symm) (by decide)

theorem frameRate_of_read : (strstr body (ascii "frameRate=\"")).isSome = true := by
  cases hfind : strstr body (ascii "frameRate=\"") with
  | some r => rfl
  | none =>
      have hbody := (stores_of_read hread (t := []) (by simp)).frameRate
      have hmore := (stores_of_read hread (t := ascii "frameRate=\"" ++ ascii "1")
        (by decide)).frameRate
      rw [List.append_nil, Vmc.frameRate, behind_missing hfind] at hbody
      rw [Vmc.frameRate,
        @behind_fresh body "frameRate=\"" "frameRate=" (by decide) (by decide) hfind] at hmore
      exact absurd (hbody.trans hmore.symm) (by decide)

theorem settled_of_read : Settled lib body m where
  static := static_of_read hread
  duration := @timeSettled_of_read body _ "mediaPresentationDuration=" (by decide) (by decide)
    (by decide) _ _ fun _ ht => (stores_of_read hread ht).duration.symm
  avail := @timeSettled_of_read body _ "availabilityStartTime=" (by decide) (by decide)
    (by decide) _ _ fun _ ht => (stores_of_read hread ht).avail.symm
  publish := @timeSettled_of_read body _ "publishTime=" (by decide) (by decide) (by decide) _ _
    fun _ ht => (stores_of_read hread ht).publish
  depth := @timeSettled_of_read body _ "timeShiftBufferDepth=" (by decide) (by decide)
    (by decide) _ _ fun _ ht => (stores_of_read hread ht).depth
  start := start_of_read hread
  timescale := timescale_of_read hread
  frameRate := frameRate_of_read hread

end run_on

/-- **What stands behind the body**: it makes no difference for a body that is
empty, that has a NUL in it, or in which every scan ends.  A body it makes no
difference for, and with which the loader comes to an end, is empty, has a NUL
in it, or names all it is read for, and what does not end inside it is read the
same whatever follows. -/
theorem manifest_reads_body_only (url body : List UInt8) :
    (body = [] ∨ 0 ∈ body ∨ ScansEnd body → ReadsBodyOnly lib url body) ∧
      (ReadsBodyOnly lib url body → ∀ st m, loadFromHeap lib url body [0] = .ok (st, m) →
        body = [] ∨ 0 ∈ body ∨ Settled lib body m) := by
  constructor
  · intro h
    by_cases h0 : 0 ∈ body
    · intro mem mem' _ _
      rw [loadFromHeap, loadFromHeap, cstr_append_of_mem h0, cstr_append_of_mem h0]
    · obtain rfl | h0' | hends := h
      · exact fun mem mem' _ _ => rfl
      · exact absurd h0' h0
      · exact readsBodyOnly_of_scansEnd lib hends h0 url
  · intro hsame st m hret
    by_cases hne : body = []
    · exact .inl hne
    · by_cases h0 : 0 ∈ body
      · exact .inr (.inl h0)
      · have hread : ∀ t, 0 ∉ t → loadManifest lib url (body ++ t) = .ok (st, m) := fun t ht =>
          (hsame.text lib hne h0 ht).trans hret
        exact .inr (.inr (settled_of_read hread))

/-- A manifest that has everything. -/
def fullText : List UInt8 :=
  ascii "<MPD type=\"static\" mediaPresentationDuration=\"PT4S\" " ++
    ascii "availabilityStartTime=\"2026-01-01T00:00:00Z\" publishTime=\"2026-01-01T00:00:00Z\" " ++
    ascii "timeShiftBufferDepth=\"PT30S\"><SegmentTemplate timescale=\"1\" " ++
    ascii "startNumber=\"1\"><S d=\"2\"/><Representation frameRate=\"24/1\"/></MPD>"

theorem manifest_reads_body_only_full :
    ReadsBodyOnly emptyLib (ascii "http://h/live.mpd") fullText := by
  have hends : ScansEnd fullText := by decide +kernel
  exact (manifest_reads_body_only emptyLib (ascii "http://h/live.mpd") fullText).1
    (.inr (.inr hends))

/-- The result never depends on the memory behind the body. -/
def ManifestReadsBodyOnly : Prop :=
  ∀ (Double : Type) (lib : DoubleLib Double) (url body : List UInt8), ReadsBodyOnly lib url body

/-- A manifest without a start number, and one left over behind it. -/
theorem manifestReadsBodyOnly_fails : ¬ ManifestReadsBodyOnly := by
  intro h
  have hsame := h Unit emptyLib (ascii "http://h/live.mpd")
    (ascii "<MPD type=\"static\"><SegmentTemplate timescale=\"1\"><S d=\"2\"/></MPD>") [0]
    (ascii " startNumber=\"7\"" ++ [0]) (by decide) (by decide)
  revert hsame
  decide +kernel

end Vmc
