import Vmc.Client.SegmentFetch

/-!
# Vmc.Client.ChunkLoop

The chunk decoder of `http_get` as the loop it is: one step for the head of the
loop, one for each turn of the doubling loop inside it, one for the copy.  All
sums are `size_t` sums, modulo `2^64`, and a `memcpy` outside its buffers is a
state of its own.

`chunkLoop_decodes` says that `decodeChunks` is what the loop comes to.
`chunk_loop_ends_iff` says when it comes to anything.
-/

namespace Vmc

open Bytes

/-! ## the loop -/

/-- Where the decoder is: at the head of the loop, in the loop that doubles
`new_cap`, or in front of the copy. -/
inductive ChunkPc where
  | line
  | growing (sz newCap : Nat)
  | copying (sz : Nat)
deriving DecidableEq, Repr

/-- The decoder at work on the bytes from `pos` on, with `buf` decoded so far;
finished; or gone out of bounds in a `memcpy`. -/
inductive ChunkLoop where
  | busy (pc : ChunkPc) (pos : Nat) (buf : List UInt8) (cap : Nat)
  | done (r : HttpResult)
  | wild
deriving DecidableEq, Repr

/-- The size line at `pos`: the size, and the position behind the line; `none`
if there is nothing but line ends. -/
def sizeLine (raw : List UInt8) (pos : Nat) : Option (Nat × Nat) :=
  let pos := pos + ((raw.drop pos).takeWhile fun c => c = 13 ∨ c = 10).length
  if pos ≥ raw.length then none
  else
    let hex := ((raw.drop pos).take 31).takeWhile Digits.isHex
    let pos := pos + hex.length
    let pos := pos + ((raw.drop pos).takeWhile (· ≠ 10)).length
    some (strtol16 hex, if pos < raw.length then pos + 1 else pos)

/-- `if (pos < raw_len && raw[pos] == c) pos++`. -/
def skipByte (raw : List UInt8) (c : UInt8) (pos : Nat) : Nat :=
  if raw[pos]? = some c then pos + 1 else pos

/-- One step of the loop.  A run asks for each size at most once, so a function
of the size covers every allocator. -/
def chunkStep (alloc : Nat → Bool) (raw : List UInt8) : ChunkLoop → ChunkLoop
  | .busy .line pos buf cap =>
      match sizeLine raw pos with
      | none => .done .fail
      | some (sz, pos) =>
          if sz = 0 then .done (.ok buf)
          else if (buf.length + sz) % 2 ^ 64 > cap then
            .busy (.growing sz (if cap ≠ 0 then cap * 2 % 2 ^ 64 else 262144)) pos buf cap
          else .busy (.copying sz) pos buf cap
  | .busy (.growing sz newCap) pos buf cap =>
      if newCap < (buf.length + sz) % 2 ^ 64 then
        .busy (.growing sz (newCap * 2 % 2 ^ 64)) pos buf cap
      else if alloc newCap then .busy (.copying sz) pos buf newCap
      else .done .fail
  | .busy (.copying sz) pos buf cap =>
      if (pos + sz) % 2 ^ 64 > raw.length then .done .fail
      else if buf.length + sz ≤ cap ∧ pos + sz ≤ raw.length then
        .busy .line (skipByte raw 10 (skipByte raw 13 (pos + sz))) (buf ++ (raw.drop pos).take sz) cap
      else .wild
  | .done r => .done r
  | .wild => .wild

/-- The decoder as it is entered behind a header block. -/
def chunkStart (hdrEnd : Nat) : ChunkLoop := .busy .line hdrEnd [] 0

/-! ## positions and what lies behind them -/

theorem drop_takeWhile (raw : List UInt8) (pos : Nat) (q : UInt8 → Bool) :
    raw.drop (pos + ((raw.drop pos).takeWhile q).length) = (raw.drop pos).dropWhile q := by
  have hsplit := List.takeWhile_append_dropWhile (p := q) (l := raw.drop pos)
  calc raw.drop (pos + ((raw.drop pos).takeWhile q).length)
      = (raw.drop pos).drop ((raw.drop pos).takeWhile q).length := (List.drop_drop ..).symm
    _ = ((raw.drop pos).takeWhile q ++ (raw.drop pos).dropWhile q).drop
          ((raw.drop pos).takeWhile q).length := by rw [hsplit]
    _ = (raw.drop pos).dropWhile q := List.drop_left ..

theorem length_takeWhile_le {raw : List UInt8} {pos : Nat} (h : pos ≤ raw.length)
    (q : UInt8 → Bool) : pos + ((raw.drop pos).takeWhile q).length ≤ raw.length := by
  have hle := (List.takeWhile_prefix (l := raw.drop pos) q).length_le
  rw [List.length_drop] at hle
  omega

theorem drop_skipByte (raw : List UInt8) (c : UInt8) (pos : Nat) :
    raw.drop (skipByte raw c pos) =
      if (raw.drop pos).head? = some c then (raw.drop pos).drop 1 else raw.drop pos := by
  rw [skipByte, List.head?_drop, apply_ite (raw.drop ·), List.drop_drop]

theorem skipByte_le (raw : List UInt8) {pos : Nat} (c : UInt8) (h : pos ≤ raw.length) :
    pos ≤ skipByte raw c pos ∧ skipByte raw c pos ≤ raw.length := by
  unfold skipByte
  split
  · rename_i hc
    have := (List.getElem?_eq_some_iff.mp hc).1
    omega
  · omega

/-- What `decodeChunks` sees at the head of the loop, by positions. -/
theorem sizeLine_spec {raw : List UInt8} {pos : Nat} (hpos : pos ≤ raw.length) :
    let rest := (raw.drop pos).dropWhile fun c => c = 13 ∨ c = 10
    let hex := (rest.take 31).takeWhile Digits.isHex
    (rest = [] ∧ sizeLine raw pos = none) ∨
    (rest ≠ [] ∧ ∃ pos', sizeLine raw pos = some (strtol16 hex, pos') ∧ pos ≤ pos' ∧
      pos' ≤ raw.length ∧ ((rest.drop hex.length).dropWhile (· ≠ 10)).drop 1 = raw.drop pos') := by
  intro rest hex
  have hrest := drop_takeWhile raw pos fun c => c = 13 ∨ c = 10
  have hle := length_takeWhile_le hpos fun c => c = 13 ∨ c = 10
  unfold sizeLine
  generalize ((raw.drop pos).takeWhile fun c => c = 13 ∨ c = 10).length = skipped at *
  by_cases hend : pos + skipped ≥ raw.length
  · refine .inl ⟨?_, by simp only [if_pos hend]⟩
    rw [← List.drop_of_length_le hend]
    exact hrest.symm
  · refine .inr ⟨?_, ?_⟩
    · intro hnil
      have hlen := congrArg List.length (hrest.trans hnil)
      rw [List.length_drop, List.length_nil] at hlen
      omega
    · have hhexle : pos + skipped + hex.length ≤ raw.length := by
        have hpre := (List.takeWhile_prefix (l := rest.take 31) Digits.isHex).length_le
        have hrestlen := congrArg List.length hrest
        rw [List.length_drop] at hrestlen
        rw [List.length_take] at hpre
        change hex.length ≤ min 31 rest.length at hpre
        change raw.length - (pos + skipped) = rest.length at hrestlen
        omega
      have hhex : ((raw.drop (pos + skipped)).take 31).takeWhile Digits.isHex = hex := by
        rw [hrest]
      clear_value hex
      have hdata := drop_takeWhile raw (pos + skipped + hex.length) (· ≠ 10)
      have hdatale := length_takeWhile_le hhexle (· ≠ 10)
      simp only [if_neg hend, hhex]
      refine ⟨_, rfl, ?_, ?_, ?_⟩
      · split <;> omega
      · split <;> omega
      · have hbehind : rest.drop hex.length = raw.drop (pos + skipped + hex.length) := by
          rw [← List.drop_drop, hrest]
        rw [hbehind, ← hdata, List.drop_drop]
        split
        · rfl
        · rw [List.drop_of_length_le (by omega), List.drop_of_length_le (by omega)]

theorem sizeLine_lt {raw : List UInt8} {pos sz pos' : Nat} (h : sizeLine raw pos = some (sz, pos')) :
    sz < 2 ^ 63 := by
  unfold sizeLine at h
  simp only at h
  split at h
  · cases h
  · obtain ⟨rfl, -⟩ := Prod.mk.inj (Option.some.inj h)
    rw [strtol16]
    omega

/-- One turn of `decodeChunks`, by positions. -/
theorem decodeChunks_turn (alloc : Nat → Bool) {raw : List UInt8} {pos : Nat}
    (hpos : pos ≤ raw.length) (fuel : Nat) (buf : List UInt8) (cap : Nat) :
    (sizeLine raw pos = none ∧ decodeChunks alloc (fuel + 1) (raw.drop pos) buf cap = .fail) ∨
    ∃ sz pos', sizeLine raw pos = some (sz, pos') ∧ pos ≤ pos' ∧ pos' ≤ raw.length ∧
      (sz = 0 → decodeChunks alloc (fuel + 1) (raw.drop pos) buf cap = .ok buf) ∧
      (sz ≠ 0 → ∀ r, ensureCap alloc buf.length sz cap = .error r →
        decodeChunks alloc (fuel + 1) (raw.drop pos) buf cap = r) ∧
      (sz ≠ 0 → ∀ cap', ensureCap alloc buf.length sz cap = .ok cap' →
        decodeChunks alloc (fuel + 1) (raw.drop pos) buf cap =
          if pos' + sz > raw.length then .fail
          else decodeChunks alloc fuel (raw.drop (skipByte raw 10 (skipByte raw 13 (pos' + sz))))
            (buf ++ (raw.drop pos').take sz) cap') := by
  obtain ⟨hnil, hline⟩ | ⟨hne, pos', hline, hle, hle', hdata⟩ := sizeLine_spec hpos
  · refine .inl ⟨hline, ?_⟩
    rw [decodeChunks]
    simp only [hnil, if_true]
  · refine .inr ⟨_, pos', hline, hle, hle', ?_⟩
    have hunfold := decodeChunks.eq_2 alloc (raw.drop pos) buf cap fuel
    simp only [if_neg hne, hdata] at hunfold
    generalize strtol16 _ = sz at *
    refine ⟨fun hz => ?_, fun hz r hr => ?_, fun hz cap' hcap => ?_⟩
    · rw [hunfold, if_pos hz]
    · rw [hunfold, if_neg hz, hr]
    · have htrail : skipTrailing ((raw.drop pos').drop sz) =
          raw.drop (skipByte raw 10 (skipByte raw 13 (pos' + sz))) := by
        rw [drop_skipByte, drop_skipByte, List.drop_drop]
        rfl
      rw [hunfold, if_neg hz, hcap, htrail, List.length_drop]
      dsimp only
      by_cases hshort : pos' + sz > raw.length
      · rw [if_pos hshort, if_pos (by omega)]
      · rw [if_neg hshort, if_neg (by omega)]

/-! ## in bounds -/

theorem capOk_double {cap : Nat} (h : CapOk cap) : CapOk (cap * 2 % 2 ^ 64) := by
  obtain rfl | ⟨k, hk, rfl⟩ := h
  · exact .inl rfl
  · by_cases hlast : k = 63
    · subst hlast
      exact .inl rfl
    · right
      refine ⟨k + 1, by omega, ?_⟩
      rw [← Nat.pow_succ]
      exact Nat.mod_eq_of_lt (Nat.pow_lt_pow_right (by omega) (by omega))

theorem CapOk.le {cap : Nat} (h : CapOk cap) : cap ≤ 2 ^ 63 := by
  obtain rfl | ⟨k, hk, rfl⟩ := h
  · omega
  · exact Nat.pow_le_pow_right (by omega) hk

/-- What the decoder knows of the current chunk. -/
def ChunkPc.Ok (len cap : Nat) : ChunkPc → Prop
  | .line => True
  | .growing sz newCap => sz < 2 ^ 63 ∧ CapOk newCap
  | .copying sz => sz < 2 ^ 63 ∧ len + sz ≤ cap

/-- The decoder is inside the response, and decoded no more than it read. -/
structure ChunkBusy (raw : List UInt8) (pc : ChunkPc) (pos : Nat) (buf : List UInt8) (cap : Nat) :
    Prop where
  pos_le : pos ≤ raw.length
  len_le : buf.length ≤ pos
  cap_ok : CapOk cap
  pc_ok : pc.Ok buf.length cap

def ChunkLoop.Inv (raw : List UInt8) : ChunkLoop → Prop
  | .busy pc pos buf cap => ChunkBusy raw pc pos buf cap
  | .done _ => True
  | .wild => False

theorem chunkStart_inv {raw : List UInt8} {pos : Nat} (hpos : pos ≤ raw.length) :
    (chunkStart pos).Inv raw :=
  ⟨hpos, Nat.zero_le pos, .inl rfl, trivial⟩

section

variable (alloc : Nat → Bool) {raw : List UInt8} (hraw : raw.length < 2 ^ 62)

include hraw in
/-- No sum of the loop wraps around. -/
theorem ChunkBusy.no_wrap {pc : ChunkPc} {pos : Nat} {buf : List UInt8} {cap : Nat}
    (h : ChunkBusy raw pc pos buf cap) {sz : Nat} (hsz : sz < 2 ^ 63) :
    (buf.length + sz) % 2 ^ 64 = buf.length + sz ∧ (pos + sz) % 2 ^ 64 = pos + sz := by
  have h1 := h.pos_le
  have h2 := h.len_le
  exact ⟨Nat.mod_eq_of_lt (by omega), Nat.mod_eq_of_lt (by omega)⟩

include hraw in
/-- The check in front of the copy is the bound of the read, and the capacity
that of the write. -/
theorem chunkStep_copy {pos : Nat} {buf : List UInt8} {cap sz : Nat}
    (h : ChunkBusy raw (.copying sz) pos buf cap) :
    chunkStep alloc raw (.busy (.copying sz) pos buf cap) =
      if pos + sz > raw.length then .done .fail
      else .busy .line (skipByte raw 10 (skipByte raw 13 (pos + sz))) (buf ++ (raw.drop pos).take sz)
        cap := by
  obtain ⟨hlt, hroom⟩ := h.pc_ok
  simp only [chunkStep, (h.no_wrap hraw hlt).2]
  by_cases hshort : pos + sz > raw.length
  · rw [if_pos hshort, if_pos hshort]
  · rw [if_neg hshort, if_neg hshort, if_pos ⟨hroom, by omega⟩]

/-- The trailing line end is skipped inside the response. -/
theorem skipCrlf_le {raw : List UInt8} {pos : Nat} (h : pos ≤ raw.length) :
    pos ≤ skipByte raw 10 (skipByte raw 13 pos) ∧
      skipByte raw 10 (skipByte raw 13 pos) ≤ raw.length := by
  have h13 := skipByte_le raw 13 h
  have h10 := skipByte_le raw 10 h13.2
  omega

include hraw in
theorem chunkStep_inv {s : ChunkLoop} (h : s.Inv raw) : (chunkStep alloc raw s).Inv raw := by
  cases s with
  | done r => trivial
  | wild => exact h
  | busy pc pos buf cap =>
      have hbusy : ChunkBusy raw pc pos buf cap := h
      cases pc with
      | line =>
          obtain ⟨-, hline⟩ | ⟨-, pos', hline, hle, hle', -⟩ := sizeLine_spec hbusy.pos_le
          · simp only [chunkStep, hline]
            trivial
          · have hlt := sizeLine_lt hline
            have hlen := hbusy.len_le
            simp only [chunkStep, hline, (hbusy.no_wrap hraw hlt).1]
            split
            · trivial
            · split
              · refine ⟨hle', by omega, hbusy.cap_ok, hlt, ?_⟩
                split
                · exact capOk_double hbusy.cap_ok
                · exact .inr ⟨18, by omega, rfl⟩
              · exact ⟨hle', by omega, hbusy.cap_ok, hlt, by omega⟩
      | growing sz newCap =>
          obtain ⟨hlt, hcap⟩ := hbusy.pc_ok
          simp only [chunkStep, (hbusy.no_wrap hraw hlt).1]
          split
          · exact ⟨hbusy.pos_le, hbusy.len_le, hbusy.cap_ok, hlt, capOk_double hcap⟩
          · split
            · exact ⟨hbusy.pos_le, hbusy.len_le, hcap, hlt, by omega⟩
            · trivial
      | copying sz =>
          rw [chunkStep_copy alloc hraw hbusy]
          split
          · trivial
          · rename_i hin
            have hskip := skipCrlf_le (Nat.not_lt.mp hin)
            have hlen := hbusy.len_le
            refine ⟨hskip.2, ?_, hbusy.cap_ok, trivial⟩
            rw [List.length_append, List.length_take, List.length_drop]
            omega

include hraw in
theorem chunkLoop_inv {s : ChunkLoop} (h : s.Inv raw) (n : Nat) :
    ((chunkStep alloc raw)^[n] s).Inv raw := by
  induction n with
  | zero => exact h
  | succ n ih =>
      rw [Function.iterate_succ_apply']
      exact chunkStep_inv alloc hraw ih

include hraw in
/-- **Every copy is in bounds**, in a run of any length. -/
theorem chunkLoop_in_bounds {pos : Nat} (hpos : pos ≤ raw.length) (n : Nat) :
    (chunkStep alloc raw)^[n] (chunkStart pos) ≠ .wild := by
  intro hwild
  have hinv := chunkLoop_inv alloc hraw (chunkStart_inv hpos) n
  rw [hwild] at hinv
  exact hinv

/-! ## the doubling loop -/

include hraw in
/-- The doubling loop comes to what `growCap` says. -/
theorem grow_ends {pos : Nat} {buf : List UInt8} {cap sz newCap : Nat}
    (h : ChunkBusy raw (.growing sz newCap) pos buf cap) {fuel c : Nat}
    (hgrow : growCap fuel newCap (buf.length + sz) = some c) :
    ∃ n, (chunkStep alloc raw)^[n] (.busy (.growing sz newCap) pos buf cap) =
      .busy (.growing sz c) pos buf cap ∧ buf.length + sz ≤ c ∧ CapOk c := by
  induction fuel generalizing newCap with
  | zero => cases hgrow
  | succ fuel ih =>
      rw [growCap] at hgrow
      obtain ⟨hlt, hcap⟩ := h.pc_ok
      by_cases hmore : newCap < buf.length + sz
      · rw [if_pos hmore] at hgrow
        obtain ⟨n, hn, hc⟩ := ih ⟨h.pos_le, h.len_le, h.cap_ok, hlt, capOk_double hcap⟩ hgrow
        refine ⟨n + 1, ?_, hc⟩
        rw [Function.iterate_succ_apply, ← hn]
        simp only [chunkStep, (h.no_wrap hraw hlt).1, if_pos hmore]
      · rw [if_neg hmore] at hgrow
        obtain rfl := Option.some.inj hgrow
        exact ⟨0, rfl, by omega, hcap⟩

include hraw in
/-- A need above `2^63` is never met: the capacity doubles to 0 and stays so. -/
theorem grow_forever {pos : Nat} {buf : List UInt8} {cap sz newCap : Nat}
    (h : ChunkBusy raw (.growing sz newCap) pos buf cap) (hneed : 2 ^ 63 < buf.length + sz)
    (n : Nat) :
    ∃ c, (chunkStep alloc raw)^[n] (.busy (.growing sz newCap) pos buf cap) =
      .busy (.growing sz c) pos buf cap := by
  induction n generalizing newCap with
  | zero => exact ⟨newCap, rfl⟩
  | succ n ih =>
      obtain ⟨hlt, hcap⟩ := h.pc_ok
      have hle := hcap.le
      have hstep : chunkStep alloc raw (.busy (.growing sz newCap) pos buf cap) =
          .busy (.growing sz (newCap * 2 % 2 ^ 64)) pos buf cap := by
        simp only [chunkStep, (h.no_wrap hraw hlt).1, if_pos (show newCap < buf.length + sz by omega)]
      rw [Function.iterate_succ_apply, hstep]
      exact ih ⟨h.pos_le, h.len_le, h.cap_ok, hlt, capOk_double hcap⟩

theorem growCap_forever {need : Nat} (hneed : 2 ^ 63 < need) (fuel : Nat) {newCap : Nat}
    (hcap : CapOk newCap) : growCap fuel newCap need = none := by
  induction fuel generalizing newCap with
  | zero => rfl
  | succ fuel ih =>
      have hle := hcap.le
      rw [growCap, if_pos (by omega)]
      exact ih (capOk_double hcap)

/-! ## the runs -/

/-- The size announced at `pos` can be added to the body without the capacity
having to pass `2^63`. -/
def SizeFits (raw : List UInt8) (pos : Nat) (buf : List UInt8) : Prop :=
  ∀ sz pos', sizeLine raw pos = some (sz, pos') → buf.length + sz ≤ 2 ^ 63

theorem chunkLoop_done (r : HttpResult) (n : Nat) :
    (chunkStep alloc raw)^[n] (.done r) = .done r :=
  Function.iterate_fixed rfl n

/-- What ended stays ended. -/
theorem chunkLoop_done_of_le {s : ChunkLoop} {r : HttpResult} {m n : Nat} (hle : m ≤ n)
    (h : (chunkStep alloc raw)^[m] s = .done r) : (chunkStep alloc raw)^[n] s = .done r := by
  obtain ⟨k, rfl⟩ := Nat.exists_eq_add_of_le hle
  rw [Nat.add_comm, Function.iterate_add_apply, h, chunkLoop_done]

include hraw in
/-- A size that does not fit is the end of all progress. -/
theorem line_forever {pos : Nat} {buf : List UInt8} {cap : Nat}
    (h : ChunkBusy raw .line pos buf cap) (hfits : ¬ SizeFits raw pos buf) (n : Nat) :
    ∃ pc pos', (chunkStep alloc raw)^[n] (.busy .line pos buf cap) = .busy pc pos' buf cap := by
  simp only [SizeFits, not_forall, not_le] at hfits
  obtain ⟨sz, pos', hline, hneed⟩ := hfits
  have hlt := sizeLine_lt hline
  have hcap := h.cap_ok.le
  have hlen := h.len_le
  have hpos := h.pos_le
  cases n with
  | zero => exact ⟨.line, pos, rfl⟩
  | succ n =>
      have hinv := chunkStep_inv alloc hraw (show ChunkLoop.Inv raw (.busy .line pos buf cap) from h)
      rw [Function.iterate_succ_apply]
      simp only [chunkStep, hline, (h.no_wrap hraw hlt).1] at hinv ⊢
      rw [if_neg (by omega), if_pos (by omega)] at hinv ⊢
      obtain ⟨c, hc⟩ := grow_forever alloc hraw hinv hneed n
      exact ⟨_, _, hc⟩

include hraw in
/-- Making room for a chunk: the loop gets to the copy with the capacity of
`ensureCap`, or fails with it. -/
theorem line_to_copy {pos : Nat} {buf : List UInt8} {cap sz pos' : Nat}
    (h : ChunkBusy raw .line pos buf cap) (hline : sizeLine raw pos = some (sz, pos')) (hsz : sz ≠ 0)
    (hfits : buf.length + sz ≤ 2 ^ 63) :
    (∃ n, (chunkStep alloc raw)^[n] (.busy .line pos buf cap) = .done .fail ∧
      ensureCap alloc buf.length sz cap = .error .fail) ∨
    (∃ n cap', (chunkStep alloc raw)^[n] (.busy .line pos buf cap) =
      .busy (.copying sz) pos' buf cap' ∧ ensureCap alloc buf.length sz cap = .ok cap') := by
  have hlt := sizeLine_lt hline
  have hwrap := (h.no_wrap hraw hlt).1
  have hinv := chunkStep_inv alloc hraw (show ChunkLoop.Inv raw (.busy .line pos buf cap) from h)
  have hfirst : chunkStep alloc raw (.busy .line pos buf cap) =
      if buf.length + sz > cap then
        .busy (.growing sz (if cap ≠ 0 then cap * 2 % 2 ^ 64 else 262144)) pos' buf cap
      else .busy (.copying sz) pos' buf cap := by
    simp only [chunkStep, hline, if_neg hsz, hwrap]
  rw [hfirst] at hinv
  by_cases hmore : buf.length + sz > cap
  · rw [if_pos hmore] at hinv hfirst
    obtain ⟨m, hm, hgrow⟩ := growCap_ok h.cap_ok hmore hfits
    obtain ⟨n, hn, hroom, -⟩ := grow_ends alloc hraw hinv hgrow
    -- the turns of the doubling loop, and the `realloc` behind it
    have hrealloc : (chunkStep alloc raw)^[n + 2] (.busy .line pos buf cap) =
        if alloc (2 ^ m) then .busy (.copying sz) pos' buf (2 ^ m) else .done .fail := by
      rw [Function.iterate_succ_apply', Function.iterate_succ_apply, hfirst, hn]
      simp only [chunkStep, hwrap, if_neg (Nat.not_lt.mpr hroom)]
    cases hall : alloc (2 ^ m) with
    | true =>
        rw [hall, if_pos rfl] at hrealloc
        refine .inr ⟨n + 2, 2 ^ m, hrealloc, ?_⟩
        simp only [ensureCap, if_pos hmore, hgrow, hall, if_true]
    | false =>
        rw [hall, if_neg Bool.false_ne_true] at hrealloc
        refine .inl ⟨n + 2, hrealloc, ?_⟩
        simp only [ensureCap, if_pos hmore, hgrow, hall, if_neg Bool.false_ne_true]
  · rw [if_neg hmore] at hfirst
    exact .inr ⟨1, cap, hfirst, if_neg hmore⟩

theorem ensureCap_hang {buf : List UInt8} {cap sz : Nat} (hcap : CapOk cap)
    (hfits : 2 ^ 63 < buf.length + sz) : ensureCap alloc buf.length sz cap = .error .hang := by
  have hle := hcap.le
  have hstart : CapOk (if cap ≠ 0 then cap * 2 % 2 ^ 64 else 262144) := by
    split
    · exact capOk_double hcap
    · exact .inr ⟨18, by omega, rfl⟩
  unfold ensureCap
  rw [if_pos (by omega), growCap_forever hfits 65 hstart]

include hraw in
/-- From any turn on, the loop comes to what `decodeChunks` says, or to a size
that does not fit. -/
theorem chunkLoop_runs (fuel : Nat) :
    ∀ {pos : Nat} {buf : List UInt8} {cap : Nat}, raw.length - pos < fuel →
      ChunkBusy raw .line pos buf cap →
      (decodeChunks alloc fuel (raw.drop pos) buf cap ≠ .hang ∧
        ∃ n, (chunkStep alloc raw)^[n] (.busy .line pos buf cap) =
          .done (decodeChunks alloc fuel (raw.drop pos) buf cap)) ∨
      (decodeChunks alloc fuel (raw.drop pos) buf cap = .hang ∧
        ∃ n pos' buf' cap', (chunkStep alloc raw)^[n] (.busy .line pos buf cap) =
          .busy .line pos' buf' cap' ∧ ¬ SizeFits raw pos' buf') := by
  induction fuel with
  | zero =>
      intro pos buf cap hfuel
      omega
  | succ fuel ih =>
      intro pos buf cap hfuel h
      obtain ⟨hline, hresult⟩ | ⟨sz, pos', hline, hle, hle', hzero, herror, hok⟩ :=
        decodeChunks_turn alloc h.pos_le fuel buf cap
      · rw [hresult]
        refine .inl ⟨by decide, 1, ?_⟩
        rw [Function.iterate_one]
        simp only [chunkStep, hline]
      · by_cases hsz : sz = 0
        · rw [hzero hsz]
          refine .inl ⟨fun h => HttpResult.noConfusion h, 1, ?_⟩
          rw [Function.iterate_one]
          simp only [chunkStep, hline, if_pos hsz]
        · by_cases hfits : buf.length + sz ≤ 2 ^ 63
          · obtain ⟨n, hn, hcap⟩ | ⟨n, cap', hn, hcap⟩ := line_to_copy alloc hraw h hline hsz hfits
            · rw [herror hsz _ hcap]
              exact .inl ⟨by decide, n, hn⟩
            · have hcopy := chunkLoop_inv alloc hraw
                (show ChunkLoop.Inv raw (.busy .line pos buf cap) from h) n
              rw [hn] at hcopy
              have hnext : (chunkStep alloc raw)^[n + 1] (.busy .line pos buf cap) =
                  chunkStep alloc raw (.busy (.copying sz) pos' buf cap') := by
                rw [Function.iterate_succ_apply', hn]
              have hinv := chunkStep_inv alloc hraw hcopy
              rw [chunkStep_copy alloc hraw hcopy] at hnext hinv
              rw [hok hsz cap' hcap]
              by_cases hshort : pos' + sz > raw.length
              · rw [if_pos hshort] at hnext ⊢
                exact .inl ⟨by decide, n + 1, hnext⟩
              · rw [if_neg hshort] at hnext hinv ⊢
                have hskip := skipCrlf_le (Nat.not_lt.mp hshort)
                obtain ⟨hres, k, hk⟩ | ⟨hhang, k, p, b, c, hk, hbad⟩ := ih (by omega) hinv
                · refine .inl ⟨hres, k + (n + 1), ?_⟩
                  rw [Function.iterate_add_apply, hnext, hk]
                · refine .inr ⟨hhang, k + (n + 1), p, b, c, ?_, hbad⟩
                  rw [Function.iterate_add_apply, hnext, hk]
          · refine .inr ⟨herror hsz _ (ensureCap_hang alloc h.cap_ok (by omega)), 0, pos, buf,
              cap, rfl, fun hall => hfits (hall sz pos' hline)⟩

include hraw in
/-- Once a size does not fit, there is no result. -/
theorem no_end_of_not_fits {pos : Nat} (hpos : pos ≤ raw.length) {n pos' : Nat} {buf : List UInt8}
    {cap : Nat} (hn : (chunkStep alloc raw)^[n] (chunkStart pos) = .busy .line pos' buf cap)
    (hbad : ¬ SizeFits raw pos' buf) (m : Nat) (r : HttpResult) :
    (chunkStep alloc raw)^[m] (chunkStart pos) ≠ .done r := by
  intro hdone
  have hbusy := chunkLoop_inv alloc hraw (chunkStart_inv hpos) n
  rw [hn] at hbusy
  obtain ⟨pc, p, hstuck⟩ := line_forever alloc hraw hbusy hbad m
  have hlate := chunkLoop_done_of_le alloc (Nat.le_add_right m n) hdone
  rw [Function.iterate_add_apply, hn, hstuck] at hlate
  cases hlate

end

/-- The loop comes to a result. -/
def ChunkLoopEnds (alloc : Nat → Bool) (raw : List UInt8) (hdrEnd : Nat) : Prop :=
  ∃ n r, (chunkStep alloc raw)^[n] (chunkStart hdrEnd) = .done r

/-- The loop never copies out of bounds. -/
def ChunkLoopInBounds (alloc : Nat → Bool) (raw : List UInt8) (hdrEnd : Nat) : Prop :=
  ∀ n, (chunkStep alloc raw)^[n] (chunkStart hdrEnd) ≠ .wild

/-- **`decodeChunks` is what the loop comes to**, and says `hang` when it comes
to nothing. -/
theorem chunkLoop_decodes (alloc : Nat → Bool) {raw : List UInt8} (hraw : raw.length < 2 ^ 62)
    {pos : Nat} (hpos : pos ≤ raw.length) (r : HttpResult) :
    (∃ n, (chunkStep alloc raw)^[n] (chunkStart pos) = .done r) ↔
      r ≠ .hang ∧ decodeChunks alloc (raw.length + 1) (raw.drop pos) [] 0 = r := by
  obtain ⟨hres, n, hn⟩ | ⟨hhang, n, p, b, c, hn, hbad⟩ :=
    chunkLoop_runs alloc hraw (raw.length + 1) (by omega) (chunkStart_inv hpos)
  · constructor
    · rintro ⟨m, hm⟩
      have hlate := chunkLoop_done_of_le alloc (Nat.le_max_left n m) hn
      have hlate' := chunkLoop_done_of_le alloc (Nat.le_max_right n m) hm
      obtain rfl := ChunkLoop.done.inj (hlate.symm.trans hlate')
      exact ⟨hres, rfl⟩
    · rintro ⟨-, rfl⟩
      exact ⟨n, hn⟩
  · constructor
    · rintro ⟨m, hm⟩
      exact absurd hm (no_end_of_not_fits alloc hraw hpos hn hbad m r)
    · rintro ⟨hres, rfl⟩
      exact absurd hhang hres

/-- **When the decoder ends**: if every size it comes to, added to what it has
decoded, stays within `2^63`.  Its copies are in bounds in any case. -/
theorem chunk_loop_ends_iff (alloc : Nat → Bool) (raw : List UInt8) (hraw : raw.length < 2 ^ 62)
    (hdrEnd : Nat) (hend : hdrEnd ≤ raw.length) :
    ChunkLoopEnds alloc raw hdrEnd ∧ ChunkLoopInBounds alloc raw hdrEnd ↔
      ∀ n pos buf cap, (chunkStep alloc raw)^[n] (chunkStart hdrEnd) = .busy .line pos buf cap →
        SizeFits raw pos buf := by
  constructor
  · rintro ⟨⟨m, r, hm⟩, -⟩ n pos buf cap hn
    by_contra hbad
    exact no_end_of_not_fits alloc hraw hend hn hbad m r hm
  · intro hfits
    refine ⟨?_, chunkLoop_in_bounds alloc hraw hend⟩
    obtain ⟨-, n, hn⟩ | ⟨-, n, p, b, c, hn, hbad⟩ :=
      chunkLoop_runs alloc hraw (raw.length + 1) (by omega) (chunkStart_inv hend)
    · exact ⟨n, _, hn⟩
    · exact absurd (hfits n p b c hn) hbad

/-- The decoder ends, in bounds, on every chunked response. -/
def ChunkLoopAlwaysEnds : Prop :=
  ∀ (alloc : Nat → Bool) (raw : List UInt8) (hdrEnd : Nat), raw.length < 2 ^ 62 →
    httpStatus raw = 200 → findHeaderEnd raw = some hdrEnd → (scanHeaders raw hdrEnd).1 = true →
    ChunkLoopEnds alloc raw hdrEnd ∧ ChunkLoopInBounds alloc raw hdrEnd

/-- A chunk of two bytes, and a size line with the largest `long`. -/
def overflowResponse : List UInt8 :=
  ascii "HTTP/1.1 200 " ++ chunkedHeaderRest false ++ ascii "2\r\nab\r\n7fffffffffffffff\r\n"

/-- What the loop makes of it: after three steps it is at the second size line,
with a need of `2^63 + 1`. -/
theorem overflowResponse_facts :
    overflowResponse.length < 2 ^ 62 ∧ httpStatus overflowResponse = 200 ∧
      findHeaderEnd overflowResponse = some 156 ∧ (scanHeaders overflowResponse 156).1 = true ∧
      (chunkStep (fun _ => true) overflowResponse)^[3] (chunkStart 156) =
        .busy .line 163 (ascii "ab") 262144 ∧
      sizeLine overflowResponse 163 = some (2 ^ 63 - 1, 181) := by
  decide +kernel

theorem chunk_loop_ends_iff_overflow :
    ¬ (ChunkLoopEnds (fun _ => true) overflowResponse 156 ∧
      ChunkLoopInBounds (fun _ => true) overflowResponse 156) := by
  obtain ⟨hlen, -, hend, -, hrun, hline⟩ := overflowResponse_facts
  rw [chunk_loop_ends_iff (fun _ => true) overflowResponse hlen 156 (findHeaderEnd_le hend)]
  intro hfits
  exact absurd (hfits 3 163 (ascii "ab") 262144 hrun _ _ hline) (by decide)

/-- The doubling loop runs for ever. -/
theorem chunkLoopAlwaysEnds_fails : ¬ ChunkLoopAlwaysEnds := by
  intro h
  obtain ⟨hlen, hstatus, hend, hchunked, hrun, hline⟩ := overflowResponse_facts
  obtain ⟨⟨m, r, hm⟩, -⟩ := h (fun _ => true) overflowResponse 156 hlen hstatus hend hchunked
  have hbad : ¬ SizeFits overflowResponse 163 (ascii "ab") := fun hfits =>
    absurd (hfits _ _ hline) (by decide)
  exact no_end_of_not_fits (fun _ => true) hlen (findHeaderEnd_le hend) hrun hbad m r hm

end Vmc
