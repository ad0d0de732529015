import Vmc.Client.ManifestBounds
import Vmc.Client.TruncatedFetch
import Vmc.Lib.Replace

/-!
# Vmc.Sim.MpdPatch

The manifest at the end of a clip (`patch_mpd_static` of
`tools/vmc-dash-sim/main.c`), and what the client's loader makes of it.

When the encoder reaches the end of its input the server rewrites `live.mpd`:
every `type="dynamic"` becomes `type="static"`, so that the client stops chasing
the live edge.  The client finds the rest of what it reads by searching for
attribute names.  None of these can overlap one of the two words
(`Undisturbed`), so all of it is read as before: `patched_manifest_loads`.

The server reads the same file for its telemetry (`parse_avail_start_us`,
`read_start_number`), from a shorter buffer.
-/

namespace Vmc

open Bytes CInt Replace

/-! ## the server's readers and its patch -/

def dynamicType : List UInt8 := ascii "type=\"dynamic\""

def staticType : List UInt8 := ascii "type=\"static\""

/-- The text with every `type="dynamic"` made `type="static"`. -/
def patchedText (s : List UInt8) : List UInt8 := replaceAll dynamicType staticType s

/-- `patch_mpd_static`, on the contents of the file.  `alloc` says whether there
is memory for the new text, and `opens` whether the file can be written. -/
def patchMpdStatic (alloc opens : Bool) (data : List UInt8) : List UInt8 :=
  let buf := data.take 65535
  if buf = [] then data
  else if isStatic (cstr buf) then data
  else if alloc = false then data
  else if opens then patchedText (cstr buf) else data

section

variable {Double : Type} (lib : DoubleLib Double)

/-- `parse_avail_start_us`: zero where there is no time to read. -/
def parseAvailStartUs (data : List UInt8) : Int :=
  let buf := data.take 16383
  if buf = [] then 0
  else
    match (behind (cstr buf) "availabilityStartTime=\"").bind quoted with
    | none => 0
    | some tbuf =>
        match lib.scanTime tbuf with
        | none => 0
        | some t =>
            let epoch := lib.timegm (t.y - 1900) (t.mo - 1) t.d t.h t.mi (lib.whole t.se)
            if epoch < 0 then 0 else toInt64 (epoch * 1000000 + lib.micros t.se)

/-- `read_start_number`. -/
def readStartNumber (data : List UInt8) : Int :=
  let buf := data.take 16383
  if buf = [] then 0 else (behind (cstr buf) "startNumber=\"").elim 0 atoi

end

/-! ## names the patch does not touch -/

theorem strstr_eq_locate (s pat : List UInt8) : strstr s pat = locate pat s := by
  induction s with
  | nil => rfl
  | cons c cs ih => rw [strstr, locate, ih]

theorem isStatic_iff (s : List UInt8) : isStatic s = true ↔ staticType <:+: s := by
  rw [isStatic, strstr_eq_locate]
  exact locate_isSome_iff staticType s

/-- A name whose occurrences never overlap one of the two words. -/
def Undisturbed (name : String) : Prop :=
  Apart (ascii name) dynamicType ∧ Apart (ascii name) staticType

instance (name : String) : Decidable (Undisturbed name) := inferInstanceAs (Decidable (_ ∧ _))

theorem dynamicType_ne_nil : dynamicType ≠ [] := by decide

theorem strstr_patched {name : String} (h : Undisturbed name) (s : List UInt8) :
    strstr (patchedText s) (ascii name) = (strstr s (ascii name)).map patchedText := by
  rw [strstr_eq_locate, strstr_eq_locate]
  exact locate_replace dynamicType_ne_nil h.1 h.2 s

/-- The text from an occurrence of the name on, patched. -/
theorem patchedText_append {name : String} (h : Undisturbed name) (t : List UInt8) :
    patchedText (ascii name ++ t) = ascii name ++ patchedText t :=
  replace_append h.1.1 t

theorem behind_patched {name : String} (h : Undisturbed name) (s : List UInt8) :
    behind (patchedText s) name = (behind s name).map patchedText := by
  rw [behind, behind, strstr_patched h, Option.map_map, Option.map_map]
  cases hfound : strstr s (ascii name) with
  | none => rfl
  | some r =>
      obtain ⟨t, rfl⟩ := (prefix_of_strstr hfound).1
      simp only [Option.map_some, Function.comp_apply, patchedText_append h, List.drop_left]

/-! ## values behind a name -/

/-- A value that ends at a byte inside both words, behind the same bytes. -/
theorem takeWhile_patched {p : UInt8 → Bool} (ho : dynamicType.dropWhile p ≠ [])
    (hn : staticType.dropWhile p ≠ []) (h : dynamicType.takeWhile p = staticType.takeWhile p)
    (s : List UInt8) : (patchedText s).takeWhile p = s.takeWhile p :=
  takeWhile_replace dynamicType_ne_nil ho hn h s

theorem quoted_patched (s : List UInt8) : quoted (patchedText s) = quoted s := by
  have hmem : (34 : UInt8) ∈ patchedText s ↔ 34 ∈ s :=
    mem_replace_iff dynamicType_ne_nil (by decide) s
  rw [quoted, quoted, takeWhile_patched (by decide) (by decide) (by decide)]
  by_cases h : (34 : UInt8) ∈ s
  · rw [strchr, strchr, if_pos h, if_pos (hmem.mpr h)]
    rfl
  · rw [strchr, strchr, if_neg h, if_neg fun hin => h (hmem.mp hin)]

theorem timeAttr_patched {name : String} (h : Undisturbed name) (parse : List UInt8 → Int)
    (s : List UInt8) : timeAttr (patchedText s) name parse = timeAttr s name parse := by
  rw [timeAttr, timeAttr, behind_patched h]
  cases behind s name with
  | none => rfl
  | some p => rw [Option.map_some, Option.bind_some, Option.bind_some, quoted_patched]

/-- White space ends at both words. -/
theorem dropSpace_patched (s : List UInt8) :
    (patchedText s).dropWhile isSpace = patchedText (s.dropWhile isSpace) :=
  dropWhile_replace dynamicType_ne_nil (.inl fun _ => ⟨rfl, rfl⟩) s

theorem digits_patched (s : List UInt8) :
    (patchedText s).takeWhile isDecimal = s.takeWhile isDecimal :=
  takeWhile_patched (by decide) (by decide) (by decide) s

/-- A sign is kept: no word begins with one. -/
theorem patchedText_sign {c : UInt8} (h : c = 45 ∨ c = 43) (s : List UInt8) :
    patchedText (c :: s) = c :: patchedText s := by
  have hclear : Clear [c] dynamicType := by
    obtain rfl | rfl := h <;> decide
  exact replace_append hclear s

theorem leadingInt_patched (p : List UInt8) : leadingInt (patchedText p) = leadingInt p := by
  have hspace := dropSpace_patched p
  cases hq : p.dropWhile isSpace with
  | nil => rw [leadingInt, leadingInt, hspace, hq]; rfl
  | cons c q =>
      rw [hq] at hspace
      by_cases hsign : c = 45 ∨ c = 43
      · rw [patchedText_sign hsign] at hspace
        rw [leadingInt, leadingInt, hspace, hq]
        obtain rfl | rfl := hsign <;> simp only [digits_patched]
      · have hhead : (patchedText (c :: q)).head? = some c :=
          head?_replace dynamicType_ne_nil (show _ = staticType.head? by decide) _
        obtain ⟨q', hq'⟩ := List.head?_eq_some_iff.mp hhead
        have hdigits := digits_patched (c :: q)
        rw [hq'] at hspace hdigits
        rw [leadingInt_unsigned hspace (fun h => hsign (.inl h)) fun h => hsign (.inr h),
          leadingInt_unsigned hq (fun h => hsign (.inl h)) fun h => hsign (.inr h), hdigits]

theorem atoi_patched (p : List UInt8) : atoi (patchedText p) = atoi p := by
  rw [atoi, strtol10, leadingInt_patched]
  rfl

theorem startNumber_patched (s : List UInt8) :
    (behind (patchedText s) "startNumber=\"").elim 0 atoi =
      (behind s "startNumber=\"").elim 0 atoi := by
  rw [behind_patched (by decide)]
  cases behind s "startNumber=\"" with
  | none => rfl
  | some p => exact atoi_patched p

theorem segmentD_patched (ts : List UInt8) :
    segmentD (patchedText ts) = (segmentD ts).map patchedText := by
  rw [segmentD, segmentD, strstr_patched (by decide)]
  cases strstr ts (ascii "<S ") with
  | none => rfl
  | some stl => exact behind_patched (by decide) stl

theorem segDuration_patched (s : List UInt8) : segDuration (patchedText s) = segDuration s := by
  rw [segDuration, segDuration, strstr_patched (by decide)]
  cases hts : strstr s (ascii "timescale=\"") with
  | none => rfl
  | some ts =>
      have hscale : atoi ((patchedText ts).drop 11) = atoi (ts.drop 11) := by
        obtain ⟨t, rfl⟩ := (prefix_of_strstr hts).1
        rw [patchedText_append (by decide)]
        exact atoi_patched t
      simp only [Option.map_some, segmentD_patched, hscale]
      cases segmentD ts with
      | none => rfl
      | some d => simp only [Option.map_some, atoi_patched]

/-- No word has a slash in it. -/
theorem dropSlash_patched (s : List UInt8) :
    (patchedText s).dropWhile (· ≠ 47) = patchedText (s.dropWhile (· ≠ 47)) :=
  dropWhile_replace dynamicType_ne_nil (.inr fun _ => ⟨rfl, rfl⟩) s

theorem frameDen_patched (fr : List UInt8) : frameDen (patchedText fr) = frameDen fr := by
  have hmem : (47 : UInt8) ∈ patchedText fr ↔ 47 ∈ fr :=
    mem_replace_iff dynamicType_ne_nil (by decide) fr
  by_cases hslash : (47 : UInt8) ∈ fr
  · have hbehind : ((patchedText fr).dropWhile (· ≠ 47)).drop 1 =
        patchedText ((fr.dropWhile (· ≠ 47)).drop 1) := by
      rw [dropSlash_patched]
      obtain ⟨den, hden⟩ := dropWhile_of_mem hslash
      rw [hden]
      exact congrArg (List.drop 1) (replace_append (show Clear [47] dynamicType by decide) den)
    have hnil : patchedText ((fr.dropWhile (· ≠ 47)).drop 1) = [] ↔
        (fr.dropWhile (· ≠ 47)).drop 1 = [] :=
      replace_eq_nil_iff dynamicType_ne_nil (by decide) _
    simp only [frameDen, strchr, if_pos hslash, if_pos (hmem.mpr hslash), Option.map_some,
      Option.getD_some, hbehind, hnil, atoi_patched]
  · simp only [frameDen, strchr, if_neg hslash, if_neg fun h => hslash (hmem.mp h)]

theorem frameRate_patched (s : List UInt8) : frameRate (patchedText s) = frameRate s := by
  rw [frameRate, frameRate, behind_patched (by decide)]
  cases behind s "frameRate=\"" with
  | none => rfl
  | some fr => simp only [Option.map_some, atoi_patched, frameDen_patched]

/-! ## the loader on a patched manifest -/

/-- A manifest says it is static after the patch if it said what it is before. -/
theorem isStatic_patched (s : List UInt8) :
    isStatic (patchedText s) = true ↔ isStatic s = true ∨ dynamicType <:+: s := by
  rw [isStatic_iff, isStatic_iff]
  exact infix_replace_iff dynamicType_ne_nil

section

variable {Double : Type} (lib : DoubleLib Double)

/-- A manifest the loader returns, field by field. -/
structure LoadedFrom (url s : List UInt8) (m : LoadedManifest) : Prop where
  gate : (behind s "availabilityStartTime=\"").isSome ∨ isStatic s = true
  base : baseUrl url = .ok m.base
  start : m.startNumber = (behind s "startNumber=\"").elim 0 atoi
  avail : m.availStartUs = timeAttr s "availabilityStartTime=\"" (parseIso8601 lib)
  segment : segDuration s = .ok m.segDurationUs
  publish : m.publishTimeUs =
    if timeAttr s "publishTime=\"" (parseIso8601 lib) ≤ 0 then m.availStartUs
    else timeAttr s "publishTime=\"" (parseIso8601 lib)
  depth : m.timeshiftDepthUs =
    if timeAttr s "timeShiftBufferDepth=\"" (parseDurationUs lib) ≤ 0 then 10000000
    else timeAttr s "timeShiftBufferDepth=\"" (parseDurationUs lib)
  duration : m.durationUs = timeAttr s "mediaPresentationDuration=\"" (parseDurationUs lib)
  static : m.staticMpd = isStatic s
  window : windowSegments m.timeshiftDepthUs m.segDurationUs = .ok m.windowSegments
  fps : frameRate s = .ok m.frameRate
  positive : 0 < m.segDurationUs
  anchored : isStatic s = true ∨ 0 < m.availStartUs

theorem parseManifest_ok_iff {url s : List UInt8} {m : LoadedManifest} :
    parseManifest lib url s = .ok m ↔ LoadedFrom lib url s m := by
  constructor
  · intro h
    unfold parseManifest at h
    by_cases hgate : (behind s "availabilityStartTime=\"").isNone ∧ isStatic s = false
    · rw [if_pos hgate] at h
      cases h
    · obtain ⟨seg, hseg, -⟩ := segDuration_spec s
      obtain ⟨fps, hfps⟩ := frameRate_ok s
      simp only [if_neg hgate, hseg, hfps, bind, Except.bind] at h
      cases hbase : baseUrl url with
      | error e =>
          rw [hbase] at h
          cases h
      | ok base =>
          simp only [hbase] at h
          split at h
          · cases h
          · rename_i window hwindow
            split at h
            · cases h
            · rename_i hpos
              split at h
              · cases h
              · rename_i hanchor
                obtain rfl := Except.ok.inj h
                refine ⟨(gate_iff s).mp hgate, hbase, rfl, rfl, hseg, rfl, rfl, rfl, rfl, hwindow,
                  hfps, not_le.mp hpos, ?_⟩
                rwa [not_and_or, Bool.not_eq_false, not_le] at hanchor
  · intro h
    have hgate := (gate_iff s).mpr h.gate
    have hanchor := h.anchored
    have hwindow := h.window
    rw [← Bool.not_eq_false, ← not_le, ← not_and_or, h.avail] at hanchor
    rw [h.depth] at hwindow
    unfold parseManifest
    simp only [if_neg hgate, h.segment, h.fps, h.base, bind, Except.bind, hwindow,
      if_neg (not_le.mpr h.positive), if_neg hanchor]
    rw [← h.start, ← h.avail, ← h.publish, ← h.depth, ← h.duration, ← h.static]

/-- The loader makes of the patched text what it made of the text, with the
manifest static if it said dynamic. -/
theorem LoadedFrom.patched {url s : List UInt8} {m : LoadedManifest} (h : LoadedFrom lib url s m) :
    LoadedFrom lib url (patchedText s) { m with staticMpd := isStatic (patchedText s) } := by
  have hstatic : isStatic s = true → isStatic (patchedText s) = true := fun hs =>
    (isStatic_patched s).mpr (.inl hs)
  constructor
  case gate =>
    rw [behind_patched (by decide), Option.isSome_map]
    exact h.gate.imp_right hstatic
  case base => exact h.base
  case start => exact h.start.trans (startNumber_patched s).symm
  case avail =>
    rw [timeAttr_patched (by decide)]
    exact h.avail
  case segment => exact (segDuration_patched s).trans h.segment
  case publish =>
    rw [timeAttr_patched (by decide)]
    exact h.publish
  case depth =>
    rw [timeAttr_patched (by decide)]
    exact h.depth
  case duration =>
    rw [timeAttr_patched (by decide)]
    exact h.duration
  case static => rfl
  case window => exact h.window
  case fps => exact (frameRate_patched s).trans h.fps
  case positive => exact h.positive
  case anchored => exact h.anchored.imp_left hstatic

/-- The client's load of what the server has in `live.mpd`: the file as
`serve_full` sends it, through `http_get`, with `mem` behind the body on the heap. -/
def loadServed (alloc : Nat → Bool) (url data mem : List UInt8) :
    Except LoadError LoadedManifest :=
  let loaded := match httpGet alloc (serveFull true data) with
    | .ok body => loadFromHeap lib url body mem
    | _ => .ok (-1, LoadedManifest.zero)
  loaded.bind fun r => if r.1 = 0 then .ok r.2 else .error .refused

/-- A NUL right behind the body ends its text. -/
theorem cstr_append_nul (s rest : List UInt8) : cstr (s ++ 0 :: rest) = cstr s := by
  by_cases h0 : 0 ∈ s
  · exact cstr_append_of_mem h0 _
  · have hnone := cstr_append_of_notMem h0 []
    have hnul := cstr_append_of_notMem h0 (0 :: rest)
    simp only [cstr, List.append_nil] at hnone hnul ⊢
    rw [hnul, hnone]
    simp

/-- The load of a file where the byte behind the body is zero, which `http_get`
does not see to. -/
theorem loadServed_nul {alloc : Nat → Bool} (halloc : ∀ n, alloc n = true) (url : List UInt8)
    {data : List UInt8} (hlen : data.length < 10 ^ 15) (rest : List UInt8) :
    loadServed lib alloc url data (0 :: rest) =
      if data = [] then .error .refused else parseManifest lib url (cstr data) := by
  have hall : (announced data.length) = data.length := (announced_eq_iff _).mpr hlen
  have hget : httpGet alloc (serveFull true data) = .ok data := by
    rw [serveFull, httpGet_lengthHeader, halloc, hall, List.take_length, if_neg]
    exact fun h => Bool.false_ne_true h.2.symm
  rw [loadServed, hget]
  simp only [loadFromHeap, cstr_append_nul, parseManifest_eq]
  by_cases hnil : data = []
  · rw [if_pos hnil, if_pos hnil]
    rfl
  · rw [if_neg hnil, if_neg hnil]

/-- The text of a text is all of it. -/
theorem cstr_patchedText (s : List UInt8) : cstr (patchedText (cstr s)) = patchedText (cstr s) := by
  refine List.takeWhile_eq_self_iff.mpr fun c hc => decide_eq_true ?_
  rintro rfl
  have hmem : (0 : UInt8) ∈ patchedText (cstr s) ↔ 0 ∈ cstr s :=
    mem_replace_iff dynamicType_ne_nil (by decide) _
  exact absurd (List.mem_takeWhile_imp (hmem.mp hc)) (by decide)

/-- What the patch leaves in a file its buffer holds: the file, for a reason, or
the patched text. -/
theorem patchMpdStatic_eq (alloc opens : Bool) {data : List UInt8} (hsize : data.length ≤ 65535) :
    (patchMpdStatic alloc opens data = data ∧
      (data = [] ∨ isStatic (cstr data) = true ∨ ¬ (alloc = true ∧ opens = true))) ∨
    (isStatic (cstr data) = false ∧ alloc = true ∧ opens = true ∧
      patchMpdStatic alloc opens data = patchedText (cstr data)) := by
  rw [patchMpdStatic, List.take_of_length_le hsize]
  by_cases hnil : data = []
  · exact .inl ⟨if_pos hnil, .inl hnil⟩
  · rw [if_neg hnil]
    cases hstatic : isStatic (cstr data) with
    | true => exact .inl ⟨rfl, .inr (.inl rfl)⟩
    | false =>
        cases alloc with
        | false => exact .inl ⟨rfl, .inr (.inr fun h => Bool.false_ne_true h.1)⟩
        | true =>
            cases opens with
            | false => exact .inl ⟨rfl, .inr (.inr fun h => Bool.false_ne_true h.2)⟩
            | true => exact .inr ⟨rfl, rfl, rfl, rfl⟩

theorem length_patchMpdStatic_le (alloc opens : Bool) {data : List UInt8}
    (hsize : data.length ≤ 65535) : (patchMpdStatic alloc opens data).length ≤ data.length := by
  obtain ⟨heq, -⟩ | ⟨-, -, -, heq⟩ := patchMpdStatic_eq alloc opens hsize
  · rw [heq]
  · rw [heq]
    exact (length_replace_le dynamicType_ne_nil (by decide) _).trans
      (List.takeWhile_prefix _).length_le

/-- No `type="dynamic"` is left in a patched text. -/
theorem not_dynamic_patched (s : List UInt8) : ¬ dynamicType <:+: patchedText s :=
  not_infix_replace dynamicType_ne_nil (by decide) s

/-- A patch that was written leaves nothing for another one to do. -/
theorem patchMpdStatic_again (alloc opens : Bool) {data : List UInt8}
    (hsize : data.length ≤ 65535) :
    patchMpdStatic alloc opens (patchMpdStatic true true data) = patchMpdStatic true true data := by
  have hsize' := (length_patchMpdStatic_le true true hsize).trans hsize
  obtain ⟨heq, -⟩ | ⟨hdyn, -, -, heq⟩ := patchMpdStatic_eq alloc opens hsize'
  · exact heq
  · obtain ⟨heq', rfl | hstatic | hnot⟩ | ⟨-, -, -, heq'⟩ := patchMpdStatic_eq true true hsize
    · rw [heq, heq']
      rfl
    · rw [heq', hstatic] at hdyn
      cases hdyn
    · exact absurd ⟨rfl, rfl⟩ hnot
    · rw [heq, heq', cstr_patchedText]
      exact replace_of_absent dynamicType_ne_nil (not_dynamic_patched _)

/-- **The patch changes the type and nothing else.**  Where the byte behind the
body is zero, a manifest the client loads from the server is still loaded after
the patch, and with the same values: the client's manifest becomes static if the
text said `type="dynamic"` and the patch could be written, and stays what it was
otherwise.  (With something else there the loader reads on behind the body.) -/
theorem patched_manifest_loads (lib : DoubleLib Double) (clientAlloc : Nat → Bool)
    (hclient : ∀ n, clientAlloc n = true) (alloc opens : Bool)
    (url data rest rest' : List UInt8) (hsize : data.length ≤ 65535) (m : LoadedManifest)
    (h : loadServed lib clientAlloc url data (0 :: rest) = .ok m) :
    ∃ static, loadServed lib clientAlloc url (patchMpdStatic alloc opens data) (0 :: rest') =
        .ok { m with staticMpd := static } ∧
      (static = true ↔ m.staticMpd = true ∨
        (alloc = true ∧ opens = true ∧ dynamicType <:+: cstr data)) := by
  have hlen := length_patchMpdStatic_le alloc opens hsize
  rw [loadServed_nul lib hclient url (by omega)] at h
  rw [loadServed_nul lib hclient url (by omega)]
  have hnil : data ≠ [] := by
    rintro rfl
    cases h
  rw [if_neg hnil] at h
  have hloaded := (parseManifest_ok_iff lib).mp h
  have hstatic := hloaded.static
  obtain ⟨heq, hwhy⟩ | ⟨-, rfl, rfl, heq⟩ := patchMpdStatic_eq alloc opens hsize
  · refine ⟨m.staticMpd, ?_, .inl, fun hor => hor.elim id fun hdyn => ?_⟩
    · rw [heq, if_neg hnil, h]
    · obtain hempty | his | hnot := hwhy
      · exact absurd hempty hnil
      · exact hstatic.trans his
      · exact absurd ⟨hdyn.1, hdyn.2.1⟩ hnot
  · have hne : patchedText (cstr data) ≠ [] := by
      intro hempty
      have hnone : cstr data = [] :=
        (replace_eq_nil_iff dynamicType_ne_nil (by decide) _).mp hempty
      rw [hnone] at h
      cases h
    refine ⟨isStatic (patchedText (cstr data)), ?_, ?_⟩
    · rw [heq, if_neg hne, cstr_patchedText]
      exact (parseManifest_ok_iff lib).mpr (hloaded.patched lib)
    · rw [isStatic_patched, ← hstatic]
      simp

/-- A one-segment manifest, before the end of the clip. -/
def shortMpd : List UInt8 :=
  ascii "type=\"dynamic\" startNumber=\"7\" availabilityStartTime=\"1970-01-01T00:00:01Z\""

/-- A C library that knows one time, a second after the epoch. -/
def oneTimeLib : DoubleLib Unit :=
  ⟨fun _ => ((), 0), fun _ _ => 0, fun _ => some ⟨1970, 1, 1, 0, 0, ()⟩, fun _ => 1, fun _ => 0,
    fun _ _ _ _ _ _ => 1⟩

theorem patched_manifest_loads_short :
    ∃ m, loadServed oneTimeLib (fun _ => true) (ascii "http://h/live.mpd") shortMpd [0] = .ok m ∧
      m.startNumber = 7 ∧ m.staticMpd = false ∧
      ∃ static, loadServed oneTimeLib (fun _ => true) (ascii "http://h/live.mpd")
          (patchMpdStatic true true shortMpd) [0] = .ok { m with staticMpd := static } ∧
        (static = true ↔ m.staticMpd = true ∨
          (true = true ∧ true = true ∧ dynamicType <:+: cstr shortMpd)) := by
  have hload : ∃ m, loadServed oneTimeLib (fun _ => true) (ascii "http://h/live.mpd") shortMpd
      [0] = .ok m ∧ m.startNumber = 7 ∧ m.staticMpd = false := by
    rw [loadServed_nul _ (fun _ => rfl) _ (by decide +kernel)]
    exact ⟨_, rfl, by decide +kernel, by decide +kernel⟩
  obtain ⟨m, hm, hstart, hdyn⟩ := hload
  exact ⟨m, hm, hstart, hdyn, patched_manifest_loads oneTimeLib (fun _ => true) (fun _ => rfl) true
    true (ascii "http://h/live.mpd") shortMpd [] [] (by decide +kernel) m hm⟩

end

end Vmc
