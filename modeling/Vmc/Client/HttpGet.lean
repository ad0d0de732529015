import Vmc.Lib.Bytes
import Vmc.Lib.CInt
import Vmc.Lib.Digits

/-!
# Vmc.Client.HttpGet

The response parser of the DASH client (`http_get` of `apps/thinclient/main.c`):
status line, header boundary, header scan, and the decoder of chunked bodies.

The response is a list of bytes, and the decoder's position in it is the rest
of the list still to be read.  Allocation may fail: `alloc n` says whether a
buffer of `n` bytes can be had.  The capacity of the body buffer is a `size_t`
that is doubled until it suffices, modulo `2^64`; a loop that does not end is
the result `hang`.
-/

namespace Vmc

open Bytes

/-! ## C library -/

def isSpace (c : UInt8) : Bool := c = 32 ∨ (9 ≤ c ∧ c ≤ 13)

def isDecimal (c : UInt8) : Bool := 48 ≤ c ∧ c ≤ 57

/-- The integer at the front of a text, as `strtol` reads it: white space, an
optional sign, digits. -/
def leadingInt (p : List UInt8) : Int :=
  match p.dropWhile isSpace with
  | 45 :: ds => -(Digits.value 10 (ds.takeWhile isDecimal) : Int)
  | 43 :: ds => Digits.value 10 (ds.takeWhile isDecimal)
  | ds => Digits.value 10 (ds.takeWhile isDecimal)

def longMax : Int := 2 ^ 63 - 1

/-- `strtol(p, NULL, 10)`, saturating. -/
def strtol10 (p : List UInt8) : Int := max (-longMax - 1) (min longMax (leadingInt p))

/-- `atoi`: the `long` that `strtol` reads, as an `int`. -/
def atoi (p : List UInt8) : Int := CInt.toInt (strtol10 p)

/-- `strtol(p, NULL, 16)` of a run of hexadecimal digits, saturating. -/
def strtol16 (p : List UInt8) : Nat := min (2 ^ 63 - 1) (Digits.value 16 p)

theorem isSpace_of_isDecimal {d : UInt8} (h : isDecimal d = true) : isSpace d = false := by
  simp only [isDecimal, decide_eq_true_eq] at h
  simp only [isSpace, decide_eq_false_iff_not]
  rintro (rfl | ⟨_, hle⟩)
  · exact absurd h (by decide)
  · exact absurd (UInt8.le_trans h.1 hle) (by decide)

/-- A run of digits is read to its end. -/
theorem leadingInt_digits {ds rest : List UInt8} (hne : ds ≠ [])
    (hdec : ∀ b ∈ ds, isDecimal b = true) (hstop : ∀ b ∈ rest.head?, isDecimal b = false) :
    leadingInt (ds ++ rest) = Digits.value 10 ds := by
  obtain ⟨d, ds', rfl⟩ := List.exists_cons_of_ne_nil hne
  have hd : isDecimal d = true := hdec d (by simp)
  have hkeep : ((d :: ds') ++ rest).dropWhile isSpace = (d :: ds') ++ rest := by
    rw [List.cons_append, List.dropWhile_cons_of_neg]
    rw [isSpace_of_isDecimal hd]
    exact Bool.false_ne_true
  have hread := takeWhile_append_of_stop hdec hstop
  unfold leadingInt
  rw [hkeep]
  split
  · rename_i heq
    obtain rfl := (List.cons.inj heq).1
    exact absurd hd (by decide)
  · rename_i heq
    obtain rfl := (List.cons.inj heq).1
    exact absurd hd (by decide)
  · rw [hread]

theorem leadingInt_space (p : List UInt8) : leadingInt (32 :: p) = leadingInt p := by
  unfold leadingInt
  rw [List.dropWhile_cons_of_pos (by decide)]

/-! ## status and headers -/

/-- The HTTP status, 0 if the response does not begin as one. -/
def httpStatus (raw : List UInt8) : Int :=
  if raw.take 9 = ascii "HTTP/1.1 " ∨ raw.take 9 = ascii "HTTP/1.0 " then atoi (raw.drop 9) else 0

/-- The end of the header block: just behind the first empty line. -/
def findHeaderEnd : List UInt8 → Option Nat
  | [] => none
  | c :: cs =>
      if (c :: cs).take 4 = ascii "\r\n\r\n" then some 4 else (findHeaderEnd cs).map (· + 1)

/-- The value of the header whose `n`-byte name was found at `i`. -/
def headerValue (raw : List UInt8) (i n hdrEnd : Nat) : List UInt8 :=
  let v := raw.drop (i + n)
  v.drop ((v.take (hdrEnd - (i + n))).takeWhile fun c => c = 32 ∨ c = 9 ∨ c = 58).length

/-- One iteration of the header scan: whether the body is chunked, and the
announced length. -/
def scanHeader (raw : List UInt8) (hdrEnd : Nat) (acc : Bool × Int) (i : Nat) : Bool × Int :=
  let acc :=
    if startsNoCase (raw.drop i) (ascii "Transfer-Encoding:") then
      if startsNoCase (headerValue raw i 18 hdrEnd) (ascii "chunked") then (true, acc.2) else acc
    else acc
  if startsNoCase (raw.drop i) (ascii "Content-Length:") then
    (acc.1, strtol10 (headerValue raw i 15 hdrEnd))
  else acc

def scanHeaders (raw : List UInt8) (hdrEnd : Nat) : Bool × Int :=
  (List.range (hdrEnd - 18)).foldl (scanHeader raw hdrEnd) (false, -1)

/-! ## the chunk decoder -/

/-- What `http_get` comes to: an error, a body, or no end. -/
inductive HttpResult where
  | fail
  | hang
  | ok (body : List UInt8)
deriving DecidableEq, Repr

/-- `while (new_cap < need) new_cap *= 2`, in 64-bit arithmetic.  After 64
doublings the capacity is 0 and stays so. -/
def growCap : Nat → Nat → Nat → Option Nat
  | 0, _, _ => none
  | fuel + 1, newCap, need =>
      if newCap < need then growCap fuel (newCap * 2 % 2 ^ 64) need else some newCap

/-- The capacity after making room for `sz` more bytes. -/
def ensureCap (alloc : Nat → Bool) (len sz cap : Nat) : Except HttpResult Nat :=
  if len + sz > cap then
    match growCap 65 (if cap ≠ 0 then cap * 2 % 2 ^ 64 else 262144) (len + sz) with
    | none => .error .hang
    | some newCap => if alloc newCap then .ok newCap else .error .fail
  else .ok cap

/-- The CRLF behind a chunk, as far as it is there. -/
def skipTrailing (rest : List UInt8) : List UInt8 :=
  let rest := if rest.head? = some 13 then rest.drop 1 else rest
  if rest.head? = some 10 then rest.drop 1 else rest

/-- The decoding loop.  `rest` is the response from `pos` on, `buf` the body so
far and `cap` its capacity.  Each iteration but the last takes at least one
byte, so `fuel` above the length of the response is never used up. -/
def decodeChunks (alloc : Nat → Bool) : Nat → List UInt8 → List UInt8 → Nat → HttpResult
  | 0, _, _, _ => .hang
  | fuel + 1, rest, buf, cap =>
      let rest := rest.dropWhile fun c => c = 13 ∨ c = 10
      if rest = [] then .fail
      else
        let hex := (rest.take 31).takeWhile Digits.isHex
        let rest := ((rest.drop hex.length).dropWhile (· ≠ 10)).drop 1
        -- digits without a sign are never negative, so `sz < 0` cannot be
        let sz := strtol16 hex
        if sz = 0 then .ok buf
        else
          match ensureCap alloc buf.length sz cap with
          | .error e => e
          | .ok cap =>
              if sz > rest.length then .fail
              else decodeChunks alloc fuel (skipTrailing (rest.drop sz)) (buf ++ rest.take sz) cap

/-- `http_get`, from the bytes received until the connection closed to the
body. -/
def httpGet (alloc : Nat → Bool) (raw : List UInt8) : HttpResult :=
  if raw.length < 12 then .fail
  else if httpStatus raw ≠ 200 then .fail
  else
    match findHeaderEnd raw with
    | none => .fail
    | some hdrEnd =>
        let (chunked, contentLength) := scanHeaders raw hdrEnd
        if chunked then decodeChunks alloc (raw.length + 1) (raw.drop hdrEnd) [] 0
        else
          let bodyLen := raw.length - hdrEnd
          let bodyLen :=
            if 0 ≤ contentLength ∧ contentLength.toNat < bodyLen then contentLength.toNat
            else bodyLen
          if 0 < bodyLen then
            if alloc bodyLen then .ok ((raw.drop hdrEnd).take bodyLen) else .fail
          else .ok []

/-! ## headers in front of a body -/

theorem httpStatus_ok (rest : List UInt8) : httpStatus (ascii "HTTP/1.1 200 " ++ rest) = 200 := by
  have hstop : ∀ b ∈ (32 :: rest).head?, isDecimal b = false := by
    intro b hb
    obtain rfl := Option.mem_some_iff.mp hb
    decide
  have hdec : (ascii "200").all isDecimal = true := by decide
  have hread : leadingInt (ascii "200" ++ 32 :: rest) = 200 :=
    leadingInt_digits (by decide) (List.all_eq_true.mp hdec) hstop
  have hdrop : (ascii "HTTP/1.1 200 " ++ rest).drop 9 = ascii "200" ++ 32 :: rest := rfl
  rw [httpStatus, if_pos (.inl rfl), hdrop, atoi, strtol10, hread]
  decide

/-- The boundary found in a header block is found with a body behind it. -/
theorem findHeaderEnd_append {hdr : List UInt8} (h : findHeaderEnd hdr = some n)
    (body : List UInt8) : 4 ≤ hdr.length ∧ findHeaderEnd (hdr ++ body) = some n := by
  induction hdr generalizing n with
  | nil => simp [findHeaderEnd] at h
  | cons c cs ih =>
      rw [findHeaderEnd] at h
      rw [List.cons_append, findHeaderEnd]
      by_cases hhere : (c :: cs).take 4 = ascii "\r\n\r\n"
      · have hlen : 4 ≤ (c :: cs).length := by
          have hl := congrArg List.length hhere
          simp only [List.length_take] at hl
          have : (ascii "\r\n\r\n").length = 4 := rfl
          omega
        have hsame : (c :: (cs ++ body)).take 4 = (c :: cs).take 4 := by
          rw [← List.cons_append, List.take_append_of_le_length hlen]
        rw [if_pos hhere] at h
        rw [hsame, if_pos hhere]
        exact ⟨hlen, h⟩
      · rw [if_neg hhere] at h
        obtain ⟨m, hm, rfl⟩ := Option.map_eq_some_iff.mp h
        obtain ⟨hlen, hfind⟩ := ih hm
        have hsame : (c :: (cs ++ body)).take 4 = (c :: cs).take 4 := by
          rw [← List.cons_append, List.take_append_of_le_length (by rw [List.length_cons]; omega)]
        rw [hsame, if_neg hhere, hfind]
        exact ⟨by rw [List.length_cons]; omega, rfl⟩

theorem findHeaderEnd_le {raw : List UInt8} (h : findHeaderEnd raw = some n) : n ≤ raw.length := by
  induction raw generalizing n with
  | nil => simp [findHeaderEnd] at h
  | cons c cs ih =>
      have hfour := (findHeaderEnd_append h []).1
      rw [findHeaderEnd] at h
      split at h
      · obtain rfl := Option.some.inj h
        exact hfour
      · obtain ⟨m, hm, rfl⟩ := Option.map_eq_some_iff.mp h
        rw [List.length_cons]
        exact Nat.succ_le_succ (ih hm)

/-- Without an empty line there is no response. -/
theorem httpGet_noHeaderEnd (alloc : Nat → Bool) {raw : List UInt8} (h : findHeaderEnd raw = none) :
    httpGet alloc raw = .fail := by
  unfold httpGet
  rw [h]
  split
  · rfl
  · split <;> rfl

/-- A response cut inside its header block is an error. -/
theorem httpGet_cutHeader (alloc : Nat → Bool) {hdr raw : List UInt8}
    (hend : findHeaderEnd hdr = some hdr.length) (hcut : raw <+: hdr)
    (hlt : raw.length < hdr.length) : httpGet alloc raw = .fail := by
  apply httpGet_noHeaderEnd
  cases hfound : findHeaderEnd raw with
  | none => rfl
  | some n =>
      obtain ⟨rest, rfl⟩ := hcut
      have hsame := (findHeaderEnd_append hfound rest).2
      have hle := findHeaderEnd_le hfound
      rw [hend, Option.some.injEq] at hsame
      omega

theorem startsNoCase_append {p : List UInt8} (pat : List UInt8) (h : pat.length ≤ p.length)
    (rest : List UInt8) :
    startsNoCase (p ++ rest) pat = startsNoCase p pat := by
  rw [startsNoCase, startsNoCase, List.take_append_of_le_length h]

theorem headerValue_append {hdr : List UInt8} {i n : Nat} (h : i + n ≤ hdr.length)
    (body : List UInt8) :
    headerValue (hdr ++ body) i n hdr.length = headerValue hdr i n hdr.length ++ body := by
  have hdrop : (hdr ++ body).drop (i + n) = hdr.drop (i + n) ++ body :=
    List.drop_append_of_le_length h
  have htake : (hdr.drop (i + n) ++ body).take (hdr.length - (i + n)) = hdr.drop (i + n) :=
    List.take_left' (by simp)
  have hself : (hdr.drop (i + n)).take (hdr.length - (i + n)) = hdr.drop (i + n) :=
    List.take_of_length_le (by simp)
  simp only [headerValue, hdrop, htake, hself]
  exact List.drop_append_of_le_length (List.takeWhile_prefix _).length_le

/-- The scan does not look past the header block, as long as it announces no
length and the value of each transfer-encoding header lies inside it. -/
theorem scanHeaders_append {hdr : List UInt8}
    (hcl : ∀ i ∈ List.range (hdr.length - 18),
      startsNoCase (hdr.drop i) (ascii "Content-Length:") = false)
    (hte : ∀ i ∈ List.range (hdr.length - 18),
      startsNoCase (hdr.drop i) (ascii "Transfer-Encoding:") = true →
        7 ≤ (headerValue hdr i 18 hdr.length).length) (body : List UInt8) :
    scanHeaders (hdr ++ body) hdr.length = scanHeaders hdr hdr.length := by
  have hstep : ∀ acc, ∀ i ∈ List.range (hdr.length - 18),
      scanHeader (hdr ++ body) hdr.length acc i = scanHeader hdr hdr.length acc i := by
    intro acc i hi
    have hlt := List.mem_range.mp hi
    have hdrop : (hdr ++ body).drop i = hdr.drop i ++ body :=
      List.drop_append_of_le_length (by omega)
    have hroom : 18 ≤ (hdr.drop i).length := by
      rw [List.length_drop]
      omega
    have hnone := hcl i hi
    have h18 : (ascii "Transfer-Encoding:").length = 18 := rfl
    have h15 : (ascii "Content-Length:").length = 15 := rfl
    have h7 : (ascii "chunked").length = 7 := rfl
    have hname := startsNoCase_append (p := hdr.drop i) (ascii "Transfer-Encoding:") (by omega) body
    have hlen := startsNoCase_append (p := hdr.drop i) (ascii "Content-Length:") (by omega) body
    simp only [scanHeader, hdrop, hname, hlen, hnone]
    by_cases hfound : startsNoCase (hdr.drop i) (ascii "Transfer-Encoding:") = true
    · have hvalue := hte i hi hfound
      rw [headerValue_append (by omega), startsNoCase_append _ (by omega)]
      rfl
    · simp [hfound]
  unfold scanHeaders
  exact List.foldl_ext _ _ _ hstep

/-! ## text that does not hold a pattern -/

/-- Nowhere in `xs` does `pat` begin, whatever follows `xs`. -/
def Misses (pat xs : List UInt8) : Prop :=
  ∀ s ∈ xs.tails, s ≠ [] → ¬ (s.take pat.length).map toLower <+: pat.map toLower

instance (pat xs : List UInt8) : Decidable (Misses pat xs) :=
  inferInstanceAs (Decidable (∀ s ∈ xs.tails, s ≠ [] → ¬ _))

theorem Misses.of_cons {pat xs : List UInt8} {c : UInt8} (h : Misses pat (c :: xs)) :
    Misses pat xs := by
  intro s hs
  refine h s ?_
  rw [List.tails_cons]
  exact List.mem_cons_of_mem _ hs

theorem Misses.startsNoCase {pat xs : List UInt8} (h : Misses pat xs) (hne : xs ≠ [])
    (rest : List UInt8) : startsNoCase (xs ++ rest) pat = false := by
  have hself := h xs ((List.mem_tails _ _).mpr (List.suffix_refl xs)) hne
  rw [Bytes.startsNoCase, beq_eq_false_iff_ne]
  intro heq
  apply hself
  rw [← heq, List.take_append, List.map_append]
  exact List.prefix_append _ _

theorem Misses.drop {pat xs : List UInt8} (h : Misses pat xs) {i : Nat} (hi : i < xs.length)
    (rest : List UInt8) : Bytes.startsNoCase ((xs ++ rest).drop i) pat = false := by
  have htail : Misses pat (xs.drop i) := by
    intro s hs
    exact h s ((List.mem_tails _ _).mpr (((List.mem_tails _ _).mp hs).trans (List.drop_suffix i xs)))
  rw [List.drop_append_of_le_length hi.le]
  exact htail.startsNoCase (by simpa using hi) rest

theorem Misses.append {pat xs ys : List UInt8} (hxs : Misses pat xs) (hys : Misses pat ys) :
    Misses pat (xs ++ ys) := by
  induction xs with
  | nil => exact hys
  | cons c cs ih =>
      intro s hs hne
      rw [List.cons_append, List.tails_cons, List.mem_cons] at hs
      obtain rfl | hs := hs
      · have hself := hxs (c :: cs) ((List.mem_tails _ _).mpr (List.suffix_refl _)) (by simp)
        rw [← List.cons_append, List.take_append, List.map_append]
        exact fun h => hself ((List.prefix_append _ _).trans h)
      · exact ih hxs.of_cons s hs hne

/-- A text without the first byte of the pattern. -/
theorem misses_of_head {c : UInt8} {pat xs : List UInt8} (h : ∀ b ∈ xs, toLower b ≠ toLower c) :
    Misses (c :: pat) xs := by
  intro s hs hne
  obtain ⟨b, bs, rfl⟩ := List.exists_cons_of_ne_nil hne
  rw [List.length_cons, List.take_succ_cons, List.map_cons, List.map_cons, List.cons_prefix_cons]
  exact fun heq => h b (((List.mem_tails _ _).mp hs).subset (by simp)) heq.1

/-- Text without the boundary in front of it only shifts it. -/
theorem findHeaderEnd_skip {xs : List UInt8} (h : Misses (ascii "\r\n\r\n") xs) (ys : List UInt8) :
    findHeaderEnd (xs ++ ys) = (findHeaderEnd ys).map (· + xs.length) := by
  induction xs with
  | nil => simp
  | cons c cs ih =>
      have hhere : ¬ (c :: (cs ++ ys)).take 4 = ascii "\r\n\r\n" := by
        intro heq
        have hmiss := h.startsNoCase (List.cons_ne_nil c cs) ys
        rw [Bytes.startsNoCase, List.cons_append] at hmiss
        rw [show (ascii "\r\n\r\n").length = 4 from rfl, heq] at hmiss
        exact absurd hmiss (by decide)
      rw [List.cons_append, findHeaderEnd, if_neg hhere, ih h.of_cons, Option.map_map]
      rfl

/-- The scan when the only header of interest is one announcing a length. -/
theorem scanHeaders_length {raw : List UInt8} {hdrEnd k : Nat} (hk : k < hdrEnd - 18)
    (hte : ∀ i < hdrEnd - 18, startsNoCase (raw.drop i) (ascii "Transfer-Encoding:") = false)
    (hcl : ∀ i < hdrEnd - 18, (startsNoCase (raw.drop i) (ascii "Content-Length:") = true ↔ i = k)) :
    scanHeaders raw hdrEnd = (false, strtol10 (headerValue raw k 15 hdrEnd)) := by
  have hfold : ∀ n ≤ hdrEnd - 18, (List.range n).foldl (scanHeader raw hdrEnd) (false, -1) =
      if k < n then (false, strtol10 (headerValue raw k 15 hdrEnd)) else (false, -1) := by
    intro n hn
    induction n with
    | zero => rfl
    | succ n ih =>
        rw [List.range_succ, List.foldl_append, ih (by omega), List.foldl_cons, List.foldl_nil]
        rw [scanHeader, hte n (by omega), if_neg Bool.false_ne_true]
        by_cases hhere : n = k
        · subst hhere
          rw [if_pos ((hcl n (by omega)).mpr rfl), if_neg (lt_irrefl n), if_pos (by omega)]
        · rw [if_neg (fun h => hhere ((hcl n (by omega)).mp h))]
          by_cases hlt : k < n
          · rw [if_pos hlt, if_pos (by omega)]
          · rw [if_neg hlt, if_neg (by omega)]
  rw [scanHeaders, hfold _ le_rfl, if_pos hk]

end Vmc
