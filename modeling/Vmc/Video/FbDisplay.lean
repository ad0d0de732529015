import Vmc.Core
import Vmc.Lib.Mem

/-!
# Vmc.Video.FbDisplay

The Linux framebuffer display (`video/fb_display.c`).  `fb_open` takes the
geometry from the device and maps `line_length` bytes for each virtual line;
`fb_present` copies an RGB32 frame line by line, four bytes for each pixel
whatever the depth of the device.

The copy is recorded as the list of its `memcpy`s (`Scanline`), each with its
offsets into the mapping and into the frame's plane.
-/

namespace Vmc

/-! ## opening -/

/-- What the two ioctls of `fb_open` report, as far as it is used. -/
structure ScreenInfo where
  xres : UInt32
  yres : UInt32
  yresVirtual : UInt32
  bitsPerPixel : UInt32
  lineLength : UInt32

/-- The lines the device maps. -/
def ScreenInfo.lines (s : ScreenInfo) : UInt32 :=
  if s.yresVirtual > 0 then s.yresVirtual else s.yres

/-- A screen as the kernel reports it: a line holds its pixels, and the virtual
height, where there is one, covers the visible one. -/
structure Screen extends ScreenInfo where
  line_covers : (xres.toNat * bitsPerPixel.toNat + 7) / 8 ≤ lineLength.toNat
  virtual_covers : yresVirtual = 0 ∨ yres ≤ yresVirtual
  xres_lt : xres.toNat < 65536
  yres_lt : yres.toNat < 65536

/-- `vmc_fb_display` and the fields of its base; no `map` for `NULL`. -/
structure VmcFbDisplay where
  map : Option Nat
  mapSize : UInt64
  lineLen : UInt32
  xres : UInt16
  yres : UInt16
  bpp : UInt16
  width : UInt16
  height : UInt16
  opened : Bool

/-- `fb_open`: no `info` where an ioctl fails; `mmap` gives the address of a
mapping of that many bytes, or none. -/
def fbOpen (fb : VmcFbDisplay) (info : Option ScreenInfo) (mmap : UInt64 → Option Nat) :
    Status × VmcFbDisplay :=
  match info with
  | none => (.io, fb)
  | some s =>
    let mapSize := s.lineLength.toUInt64 * s.lines.toUInt64
    let fb :=
      { fb with
        xres := s.xres.toUInt16
        yres := s.yres.toUInt16
        bpp := s.bitsPerPixel.toUInt16
        lineLen := s.lineLength
        mapSize }
    match mmap mapSize with
    | none => (.io, { fb with map := none })
    | some addr =>
      (.ok, { fb with map := some addr, width := fb.xres, height := fb.yres, opened := true })

/-! ## presenting -/

/-- `vmc_pixel_format`. -/
inductive PixFmt where
  | nv12
  | nv21
  | yuv420p
  | rgb32
deriving DecidableEq

/-- `vmc_video_frame`, as far as `fb_present` uses it; the first plane is the
memory the copy reads. -/
structure VmcVideoFrame where
  width : UInt16
  height : UInt16
  pixfmt : PixFmt
  stride0 : UInt32
  plane0 : Nat → UInt8

/-- A `memcpy` of `fb_present`: `len` bytes from offset `src` of the plane to
offset `dst` of the mapping. -/
structure Scanline where
  dst : Nat
  src : Nat
  len : Nat
deriving DecidableEq

/-- How `fb_present` ends; with `VMC_OK`, after the copies it has made. -/
inductive FbPresented where
  | invalidArg
  | nosys
  | ok (rows : List Scanline)

/-- `fb_present`; the offsets are `sz_t` products of 16-bit line numbers and
32-bit pitches, which do not wrap. -/
def fbPresent (fb : VmcFbDisplay) (frame : Option VmcVideoFrame) : FbPresented :=
  match fb.map, frame with
  | some _, some f =>
    if f.pixfmt ≠ .rgb32 then .nosys
    else
      let w := if f.width < fb.xres then f.width else fb.xres
      let h := if f.height < fb.yres then f.height else fb.yres
      .ok ((List.range h.toNat).map fun y =>
        { dst := y * fb.lineLen.toNat, src := y * f.stride0.toNat, len := w.toNat * 4 })
  | _, _ => .invalidArg

/-- The mapping after the copies. -/
def fbContents (rows : List Scanline) (plane : Nat → UInt8) (map : Nat → UInt8) : Nat → UInt8 :=
  rows.foldl (fun m r => Mem.copy m r.dst plane r.src r.len) map

/-! ## where the copies go -/

/-- The offsets a copy writes. -/
def Scanline.Writes (r : Scanline) (a : Nat) : Prop := r.dst ≤ a ∧ a < r.dst + r.len

/-- Every byte written lies in the mapping. -/
def InMapping (fb : VmcFbDisplay) (rows : List Scanline) : Prop :=
  ∀ r ∈ rows, ∀ a, r.Writes a → a < fb.mapSize.toNat

/-- No byte is written for two scanlines. -/
def RowsApart (rows : List Scanline) : Prop :=
  rows.Pairwise fun r r' => ∀ a, ¬ (r.Writes a ∧ r'.Writes a)

/-- The copied pixels of a line and the copied lines. -/
def copyWidth (s : ScreenInfo) (f : VmcVideoFrame) : Nat := min f.width.toNat s.xres.toNat

def copyHeight (s : ScreenInfo) (f : VmcVideoFrame) : Nat := min f.height.toNat s.yres.toNat

/-- Nothing is copied, or a copied line fits the device's line, or the only
copied line fits the mapping. -/
def LinesFit (s : ScreenInfo) (f : VmcVideoFrame) : Prop :=
  copyWidth s f = 0 ∨ copyHeight s f = 0 ∨ 4 * copyWidth s f ≤ s.lineLength.toNat ∨
    copyHeight s f = 1 ∧ 4 * copyWidth s f ≤ s.lineLength.toNat * s.lines.toNat

/-- The copies of `h` lines of `n` bytes. -/
def scanlines (line stride n h : Nat) : List Scanline :=
  (List.range h).map fun y => { dst := y * line, src := y * stride, len := n }

theorem inMapping_scanlines {fb : VmcFbDisplay} {line stride n h : Nat} :
    InMapping fb (scanlines line stride n h) ↔
      n = 0 ∨ h = 0 ∨ (h - 1) * line + n ≤ fb.mapSize.toNat := by
  constructor
  · intro hin
    by_contra hnot
    push Not at hnot
    obtain ⟨hn, hh, hover⟩ := hnot
    have hlast : (⟨(h - 1) * line, (h - 1) * stride, n⟩ : Scanline) ∈ scanlines line stride n h :=
      List.mem_map.mpr ⟨h - 1, List.mem_range.mpr (by omega), rfl⟩
    have hbyte := hin _ hlast ((h - 1) * line + n - 1) ⟨by dsimp only; omega, by dsimp only; omega⟩
    omega
  · intro hfit r hr a ha
    obtain ⟨y, hy, rfl⟩ := List.mem_map.mp hr
    rw [List.mem_range] at hy
    obtain ⟨hlo, hhi⟩ := ha
    dsimp only at hlo hhi
    have hle : y * line ≤ (h - 1) * line := Nat.mul_le_mul_right line (by omega)
    omega

theorem rowsApart_scanlines {line stride n h : Nat} :
    RowsApart (scanlines line stride n h) ↔ n = 0 ∨ h ≤ 1 ∨ n ≤ line := by
  unfold RowsApart scanlines
  rw [List.pairwise_map]
  constructor
  · intro hapart
    by_contra hnot
    push Not at hnot
    obtain ⟨hn, hh, hover⟩ := hnot
    -- the second line begins inside the first
    have hfirst := List.pairwise_iff_getElem.mp hapart 0 1 (by simp; omega) (by simp; omega)
      (by omega) line
    simp only [List.getElem_range] at hfirst
    exact hfirst ⟨⟨by dsimp only; omega, by dsimp only; omega⟩,
      ⟨by dsimp only; omega, by dsimp only; omega⟩⟩
  · intro hfit
    rw [List.pairwise_iff_getElem]
    intro y y' hy hy' hlt a hboth
    simp only [List.getElem_range, Scanline.Writes] at hboth
    rw [List.length_range] at hy hy'
    rcases hfit with hzero | hone | hline
    · omega
    · omega
    · have hdisjoint := Mem.row_disjoint (d := 0) hline hlt
      omega

/-! ## the copy of an opened display -/

theorem toNat_lines (s : Screen) : s.yres.toNat ≤ s.lines.toNat := by
  unfold ScreenInfo.lines
  split_ifs with h
  · rcases s.virtual_covers with hzero | hle
    · rw [hzero] at h
      exact absurd h (by decide)
    · exact UInt32.le_iff_toNat_le.mp hle
  · exact le_rfl

/-- The size of the mapping is a product of 32-bit numbers, which does not
wrap. -/
theorem toNat_mapSize (line lines : UInt32) :
    (line.toUInt64 * lines.toUInt64).toNat = line.toNat * lines.toNat := by
  have hline := line.toNat_lt
  have hlines := lines.toNat_lt
  rw [UInt64.toNat_mul, UInt32.toNat_toUInt64, UInt32.toNat_toUInt64]
  refine Nat.mod_eq_of_lt ?_
  calc line.toNat * lines.toNat
      ≤ (2 ^ 32 - 1) * (2 ^ 32 - 1) := Nat.mul_le_mul (by omega) (by omega)
    _ < 2 ^ 64 := by norm_num

/-- What `fb_open` leaves behind when it accepts. -/
theorem fbOpen_ok {fb fb' : VmcFbDisplay} {s : ScreenInfo} {mmap : UInt64 → Option Nat}
    (h : fbOpen fb (some s) mmap = (.ok, fb')) :
    fb'.map.isSome ∧ fb'.lineLen = s.lineLength ∧ fb'.xres = s.xres.toUInt16 ∧
      fb'.yres = s.yres.toUInt16 ∧ fb'.mapSize = s.lineLength.toUInt64 * s.lines.toUInt64 := by
  unfold fbOpen at h
  dsimp only at h
  cases hmap : mmap (s.lineLength.toUInt64 * s.lines.toUInt64) with
  | none =>
    rw [hmap] at h
    cases h
  | some addr =>
    rw [hmap] at h
    cases h
    exact ⟨rfl, rfl, rfl, rfl, rfl⟩

theorem toNat_min (a b : UInt16) : (if a < b then a else b).toNat = min a.toNat b.toNat := by
  split_ifs with h
  · rw [UInt16.lt_iff_toNat_lt] at h
    omega
  · rw [UInt16.lt_iff_toNat_lt] at h
    omega

/-- `fb_present` on an opened display copies the common lines of frame and
screen. -/
theorem fbPresent_opened {fb fb' : VmcFbDisplay} {s : Screen} {mmap : UInt64 → Option Nat}
    (hopen : fbOpen fb (some s.toScreenInfo) mmap = (.ok, fb')) {f : VmcVideoFrame}
    (hrgb : f.pixfmt = .rgb32) :
    fbPresent fb' (some f) = .ok (scanlines s.lineLength.toNat f.stride0.toNat
      (4 * copyWidth s.toScreenInfo f) (copyHeight s.toScreenInfo f)) := by
  obtain ⟨hmap, hline, hxres, hyres, -⟩ := fbOpen_ok hopen
  obtain ⟨addr, haddr⟩ := Option.isSome_iff_exists.mp hmap
  have hx : fb'.xres.toNat = s.xres.toNat := by
    rw [hxres, UInt32.toNat_toUInt16]
    exact Nat.mod_eq_of_lt s.xres_lt
  have hy : fb'.yres.toNat = s.yres.toNat := by
    rw [hyres, UInt32.toNat_toUInt16]
    exact Nat.mod_eq_of_lt s.yres_lt
  unfold fbPresent scanlines copyWidth copyHeight
  simp only [haddr, hrgb, hline, toNat_min, hx, hy, Nat.mul_comm 4]
  simp

theorem linesFit_iff (s : Screen) (f : VmcVideoFrame) :
    LinesFit s.toScreenInfo f ↔
      (4 * copyWidth s.toScreenInfo f = 0 ∨ copyHeight s.toScreenInfo f = 0 ∨
        (copyHeight s.toScreenInfo f - 1) * s.lineLength.toNat + 4 * copyWidth s.toScreenInfo f ≤
          s.lineLength.toNat * s.lines.toNat) ∧
      (4 * copyWidth s.toScreenInfo f = 0 ∨ copyHeight s.toScreenInfo f ≤ 1 ∨
        4 * copyWidth s.toScreenInfo f ≤ s.lineLength.toNat) := by
  have hheight : copyHeight s.toScreenInfo f ≤ s.lines.toNat :=
    (min_le_right _ _).trans (toNat_lines s)
  unfold LinesFit
  generalize copyHeight s.toScreenInfo f = h at *
  generalize copyWidth s.toScreenInfo f = w at *
  generalize s.lineLength.toNat = line at *
  generalize s.lines.toNat = lines at *
  constructor
  · rintro (hw | hh | hline | ⟨hone, hmap⟩)
    · exact ⟨.inl (by omega), .inl (by omega)⟩
    · exact ⟨.inr (.inl hh), .inr (.inl (by omega))⟩
    · by_cases hh : h = 0
      · exact ⟨.inr (.inl hh), .inr (.inr hline)⟩
      · -- the lines of the mapping cover the copied ones
        have hlast : (h - 1) * line + line ≤ line * lines := by
          calc (h - 1) * line + line = h * line := by
                rw [← Nat.succ_mul, Nat.succ_eq_add_one, Nat.sub_add_cancel (by omega)]
            _ ≤ lines * line := Nat.mul_le_mul_right line hheight
            _ = line * lines := Nat.mul_comm _ _
        exact ⟨.inr (.inr (by omega)), .inr (.inr hline)⟩
    · subst hone
      exact ⟨.inr (.inr (by simpa using hmap)), .inr (.inl le_rfl)⟩
  · rintro ⟨hin, hapart⟩
    rcases hapart with hw | hh | hline
    · exact .inl (by omega)
    · rcases hin with hw | hzero | hmap
      · exact .inl (by omega)
      · exact .inr (.inl hzero)
      · by_cases hzero : h = 0
        · exact .inr (.inl hzero)
        · obtain rfl : h = 1 := by omega
          exact .inr (.inr (.inr ⟨rfl, by simpa using hmap⟩))
    · exact .inr (.inr (.inl hline))

/-- Whatever screen `fb_open` has accepted and whatever RGB32 frame: the copy
stays inside the mapping and no byte is written for two lines, exactly if the
lines fit. -/
theorem fb_copy_contained_iff (s : Screen) (fb fb' : VmcFbDisplay) (mmap : UInt64 → Option Nat)
    (hopen : fbOpen fb (some s.toScreenInfo) mmap = (.ok, fb')) (f : VmcVideoFrame)
    (hrgb : f.pixfmt = .rgb32) :
    ∃ rows, fbPresent fb' (some f) = .ok rows ∧
      (InMapping fb' rows ∧ RowsApart rows ↔ LinesFit s.toScreenInfo f) := by
  obtain ⟨-, -, -, -, hmapSize⟩ := fbOpen_ok hopen
  refine ⟨_, fbPresent_opened hopen hrgb, ?_⟩
  rw [inMapping_scanlines, rowsApart_scanlines, hmapSize, toNat_mapSize, linesFit_iff]

/-- A 640x480 screen with 16-bit pixels. -/
def screen16 : Screen where
  xres := 640
  yres := 480
  yresVirtual := 480
  bitsPerPixel := 16
  lineLength := 1280
  line_covers := by decide
  virtual_covers := by decide
  xres_lt := by decide
  yres_lt := by decide

/-- The same with 32-bit pixels. -/
def screen32 : Screen where
  xres := 640
  yres := 480
  yresVirtual := 480
  bitsPerPixel := 32
  lineLength := 2560
  line_covers := by decide
  virtual_covers := by decide
  xres_lt := by decide
  yres_lt := by decide

/-- A decoded 640x480 frame. -/
def frame640 : VmcVideoFrame where
  width := 640
  height := 480
  pixfmt := .rgb32
  stride0 := 2560
  plane0 := fun _ => 0

/-- `vmc_fb_display_init`. -/
def vmcFbDisplayInit : VmcFbDisplay :=
  { map := none, mapSize := 0, lineLen := 0, xres := 0, yres := 0, bpp := 0, width := 0,
    height := 0, opened := false }

/-- With 32-bit pixels the whole frame fits. -/
theorem fb_copy_contained_iff_32bpp :
    ∃ rows, fbPresent (fbOpen vmcFbDisplayInit (some screen32.toScreenInfo) fun _ => some 4096).2
        (some frame640) = .ok rows ∧
      InMapping (fbOpen vmcFbDisplayInit (some screen32.toScreenInfo) fun _ => some 4096).2 rows ∧
      RowsApart rows := by
  obtain ⟨rows, hrows, hiff⟩ :=
    fb_copy_contained_iff screen32 vmcFbDisplayInit _ (fun _ => some 4096) rfl frame640 rfl
  exact ⟨rows, hrows, hiff.mpr (.inr (.inr (.inl (by decide))))⟩

/-- What is promised of the copy: on every accepted screen it stays in the
mapping, line beside line. -/
def FbCopyPromise : Prop :=
  ∀ (s : Screen) (fb fb' : VmcFbDisplay) (mmap : UInt64 → Option Nat) (f : VmcVideoFrame),
    fbOpen fb (some s.toScreenInfo) mmap = (.ok, fb') → f.pixfmt = .rgb32 →
      ∃ rows, fbPresent fb' (some f) = .ok rows ∧ InMapping fb' rows ∧ RowsApart rows

/-- The last line of a frame on a 16-bit screen ends 1280 bytes behind the
mapping. -/
theorem fbCopyPromise_fails : ¬ FbCopyPromise := by
  intro h
  obtain ⟨rows, hrows, hin, -⟩ :=
    h screen16 vmcFbDisplayInit _ (fun _ => some 4096) frame640 rfl rfl
  have hcopied := @fbPresent_opened vmcFbDisplayInit _ screen16 (fun _ => some 4096) rfl
    frame640 rfl
  obtain rfl := FbPresented.ok.inj (hrows.symm.trans hcopied)
  rcases inMapping_scanlines.mp hin with hwidth | hheight | hlast
  · exact absurd hwidth (by decide)
  · exact absurd hheight (by decide)
  · exact absurd hlast (by decide)

/-! ## what is shown -/

theorem fbContents_scanlines (line stride n h : Nat) (plane map : Nat → UInt8) :
    fbContents (scanlines line stride n h) plane map =
      Mem.copyRows map 0 line plane 0 stride n h := by
  unfold fbContents scanlines Mem.copyRows
  rw [List.foldl_map]
  simp only [Nat.zero_add]

/-- Where a copied line fits the device's line, every line on the screen is the
frame's, and the rest of the mapping is what it was. -/
theorem fbPresent_shows {fb fb' : VmcFbDisplay} {s : Screen} {mmap : UInt64 → Option Nat}
    (hopen : fbOpen fb (some s.toScreenInfo) mmap = (.ok, fb')) {f : VmcVideoFrame}
    (hrgb : f.pixfmt = .rgb32)
    (hfit : 4 * copyWidth s.toScreenInfo f ≤ s.lineLength.toNat) (map : Nat → UInt8) :
    ∃ rows, fbPresent fb' (some f) = .ok rows ∧
      (∀ y < copyHeight s.toScreenInfo f, ∀ j < 4 * copyWidth s.toScreenInfo f,
        fbContents rows f.plane0 map (y * s.lineLength.toNat + j) =
          f.plane0 (y * f.stride0.toNat + j)) ∧
      ∀ a, (∀ y < copyHeight s.toScreenInfo f, ¬ (y * s.lineLength.toNat ≤ a ∧
          a < y * s.lineLength.toNat + 4 * copyWidth s.toScreenInfo f)) →
        fbContents rows f.plane0 map a = map a := by
  refine ⟨_, fbPresent_opened hopen hrgb, fun y hy j hj => ?_, fun a ha => ?_⟩
  · rw [fbContents_scanlines]
    have hrow := @Mem.copyRows_of_mem _ map f.plane0 0 _ 0 f.stride0.toNat _ _ _ _ hfit hy hj
    simpa only [Nat.zero_add] using hrow
  · rw [fbContents_scanlines]
    refine Mem.copyRows_of_not_mem fun y hy => ?_
    rw [Nat.zero_add]
    exact ha y hy

end Vmc
