import Vmc.Client.SegmentFetch

/-!
# Vmc.Client.TruncatedFetch

Responses cut short.  The receive loop of `http_get` ends in the same way on
the end of the stream, an error and a timeout, so its parser sees some prefix
of what the server sent.

A chunked response says where it ends: `chunked_prefix_whole_or_fail` goes
through every place it can be cut at.  A response with a length says so too,
but `http_get` takes the announced length only as an upper bound of the body:
`truncation_is_error_iff` says what is left of the promise.
-/

namespace Vmc

open Bytes

/-! ## chunked responses -/

/-- What `serve_progressive` sends for a list of chunks. -/
def chunkedResponse (mpd : Bool) (chunks : List (List UInt8)) : List UInt8 :=
  httpHeaders 200 (contentType mpd) (-1) true ++ (chunks.flatMap chunkBytes ++ lastChunk)

section

variable {alloc : Nat → Bool} (halloc : ∀ n, alloc n = true)

theorem decodeChunks_nil (alloc : Nat → Bool) {fuel : Nat} (hfuel : 0 < fuel) (buf : List UInt8)
    (cap : Nat) : decodeChunks alloc fuel [] buf cap = .fail := by
  obtain ⟨fuel, rfl⟩ : ∃ k, fuel = k + 1 := ⟨fuel - 1, by omega⟩
  rfl

include halloc in
/-- A chunk cut inside its size line: the digits that are there announce data,
and there are none. -/
theorem decodeChunks_cutLine {n : Nat} (hpos : 0 < n) {p : List UInt8}
    (hcut : p <+: Digits.print 16 n ++ [13]) (buf : List UInt8) {cap : Nat} (hcap : CapOk cap)
    (hsum : buf.length + n < 2 ^ 63) (fuel : Nat) :
    decodeChunks alloc (fuel + 1) p buf cap = .fail := by
  obtain ⟨hne, hhex, hshort⟩ := sizeLine_facts hpos (by omega)
  have hturn : ∀ ds tail, ds <+: Digits.print 16 n → ds ≠ [] → tail = [] ∨ tail = [13] →
      decodeChunks alloc (fuel + 1) (ds ++ tail) buf cap = .fail := by
    intro ds tail hds hds' htail
    have hk : 0 < ds.length := List.length_pos_iff.mpr hds'
    have hvalue : 0 < Digits.value 16 ds ∧ Digits.value 16 ds ≤ n := by
      have hbounds := Digits.value_take_print_bounds (b := 16) (by omega) (by omega) hpos hk
      rwa [← List.prefix_iff_eq_take.mp hds] at hbounds
    have hdata : (tail.dropWhile (· ≠ 10)).drop 1 = [] := by
      obtain rfl | rfl := htail <;> rfl
    have hstop : ∀ b ∈ tail.head?, Digits.isHex b = false := by
      obtain rfl | rfl := htail
      · intro b hb
        cases hb
      · exact sizeLine_stop []
    obtain ⟨cap', -, h⟩ := decodeChunks_line halloc hds' (fun b hb => hhex b (hds.subset hb))
      (lt_of_le_of_lt hds.length_le hshort) hstop hvalue.1 buf hcap (by omega) fuel
    rw [h, hdata, if_pos (by rw [List.length_nil]; omega)]
  obtain ⟨hp, -⟩ | ⟨q, rfl, hq⟩ := prefix_append_cases hcut
  · by_cases hnil : p = []
    · rw [hnil]
      exact decodeChunks_nil alloc (by omega) buf cap
    · have h := hturn p [] hp hnil (.inl rfl)
      rwa [List.append_nil] at h
  · refine hturn _ q (List.prefix_refl _) hne ?_
    obtain rfl | ⟨t, rfl, ht⟩ := List.prefix_cons_iff.mp hq
    · exact .inl rfl
    · rw [List.prefix_nil.mp ht]
      exact .inr rfl

include halloc in
/-- A chunk cut inside its data. -/
theorem decodeChunks_cutData {c s : List UInt8} (hlt : s.length < c.length) (buf : List UInt8)
    {cap : Nat} (hcap : CapOk cap) (hsum : buf.length + c.length < 2 ^ 63) (fuel : Nat) :
    decodeChunks alloc (fuel + 1) (Digits.print 16 c.length ++ 13 :: 10 :: s) buf cap = .fail := by
  have hvalue : Digits.value 16 (Digits.print 16 c.length) = c.length :=
    Digits.value_print (by omega) (by omega) _
  obtain ⟨hne, hhex, hshort⟩ := sizeLine_facts (n := c.length) (by omega) (by omega)
  obtain ⟨cap', -, h⟩ := decodeChunks_line halloc hne hhex hshort (sizeLine_stop (10 :: s))
    (by omega) buf hcap (by omega) fuel
  rw [h, sizeLine_data, hvalue, if_pos hlt]

include halloc in
/-- **Every cut of a stream of chunks** is an error, or leaves all the data. -/
theorem decodeChunks_cut (chunks : List (List UInt8)) :
    ∀ (fuel : Nat) (p buf : List UInt8) (cap : Nat), (∀ c ∈ chunks, c ≠ []) →
      p <+: chunks.flatMap chunkBytes ++ lastChunk → p.length < fuel → CapOk cap →
      buf.length + chunks.flatten.length < 2 ^ 63 →
      decodeChunks alloc fuel p buf cap = .fail ∨
        decodeChunks alloc fuel p buf cap = .ok (buf ++ chunks.flatten) := by
  induction chunks with
  | nil =>
      intro fuel p buf cap _ hp hfuel _ _
      obtain ⟨fuel, rfl⟩ : ∃ k, fuel = k + 1 := ⟨fuel - 1, by omega⟩
      obtain rfl | ⟨t, rfl, ht⟩ := List.prefix_cons_iff.mp (show p <+: 48 :: [13, 10, 13, 10] from hp)
      · exact .inl rfl
      · -- the `0` alone ends the body
        right
        rw [List.flatten_nil, List.append_nil]
        have hcases : t ∈ List.inits [13, 10, 13, 10] := (List.mem_inits _ _).mpr ht
        simp only [List.inits, List.map_cons, List.map_nil, List.mem_cons, List.not_mem_nil,
          or_false] at hcases
        rcases hcases with rfl | rfl | rfl | rfl | rfl <;> rfl
  | cons c cs ih =>
      intro fuel p buf cap hne hp hfuel hcap hlen
      obtain ⟨fuel, rfl⟩ : ∃ k, fuel = k + 1 := ⟨fuel - 1, by omega⟩
      have hc : c ≠ [] := hne c (by simp)
      rw [List.flatten_cons, List.length_append] at hlen
      rw [List.flatMap_cons, List.append_assoc, chunkBytes_append, List.append_cons] at hp
      obtain ⟨hline, -⟩ | ⟨q, rfl, hq⟩ := prefix_append_cases hp
      · exact .inl (decodeChunks_cutLine halloc (List.length_pos_iff.mpr hc) hline buf hcap
          (by omega) fuel)
      · rw [List.append_assoc, List.singleton_append] at hfuel ⊢
        obtain rfl | ⟨s, rfl, hs⟩ := List.prefix_cons_iff.mp hq
        · exact .inl (decodeChunks_cutLine halloc (List.length_pos_iff.mpr hc)
            (List.prefix_refl _) buf hcap (by omega) fuel)
        · obtain ⟨-, hlt⟩ | ⟨u, rfl, hu⟩ := prefix_append_cases hs
          · exact .inl (decodeChunks_cutData halloc hlt buf hcap (by omega) fuel)
          · obtain ⟨cap', hok, hturn⟩ := decodeChunks_chunk halloc hc buf hcap (by omega) fuel u
            simp only [List.length_append, List.length_cons] at hfuel
            rw [hturn]
            obtain rfl | ⟨v, rfl, hv⟩ := List.prefix_cons_iff.mp hu
            · exact .inl (decodeChunks_nil alloc (by omega) _ _)
            · obtain rfl | ⟨w, rfl, hw⟩ := List.prefix_cons_iff.mp hv
              · exact .inl (decodeChunks_nil alloc (by omega) _ _)
              · have hrest := ih fuel w (buf ++ c) cap' (fun d hd => hne d (List.mem_cons_of_mem c hd))
                  hw (by simp only [List.length_cons] at hfuel; omega) hok
                  (by rw [List.length_append]; omega)
                rw [List.append_assoc] at hrest
                rw [List.flatten_cons]
                exact hrest

end

/-- **A truncated chunked response is never taken for a complete one.**  The
whole response gives the concatenation of the chunks, and every prefix of it
gives that or an error. -/
theorem chunked_prefix_whole_or_fail (alloc : Nat → Bool) (halloc : ∀ n, alloc n = true) (mpd : Bool)
    (chunks : List (List UInt8)) (hne : ∀ c ∈ chunks, c ≠ [])
    (hlen : chunks.flatten.length < 2 ^ 62) :
    httpGet alloc (chunkedResponse mpd chunks) = .ok chunks.flatten ∧
    ∀ p, p <+: chunkedResponse mpd chunks →
      httpGet alloc p = .fail ∨ httpGet alloc p = .ok chunks.flatten := by
  constructor
  · rw [chunkedResponse, ← List.append_assoc]
    exact httpGet_chunked halloc mpd ⟨chunks, hne, rfl, rfl⟩ (by omega)
  · intro p hp
    have hhdr := parse_chunkedHeader mpd []
    simp only [List.append_nil] at hhdr
    obtain ⟨hcut, hlt⟩ | ⟨q, rfl, hq⟩ := prefix_append_cases hp
    · exact .inl (httpGet_cutHeader alloc hhdr.2.2.1 hcut hlt)
    · rw [httpGet_chunkedHeader]
      have hdecode := decodeChunks_cut halloc chunks
        ((httpHeaders 200 (contentType mpd) (-1) true ++ q).length + 1) q [] 0 hne hq
        (by rw [List.length_append]; omega) (.inl rfl) (by rw [List.length_nil]; omega)
      rwa [List.nil_append] at hdecode

/-- Two chunks, the second with data that look like the last chunk. -/
theorem chunked_prefix_whole_or_fail_framing :
    httpGet (fun _ => true) (chunkedResponse false [ascii "ab", ascii "0\r\n\r\n"]) =
        .ok (ascii "ab0\r\n\r\n") ∧
      ∀ p, p <+: chunkedResponse false [ascii "ab", ascii "0\r\n\r\n"] →
        httpGet (fun _ => true) p = .fail ∨
          httpGet (fun _ => true) p = .ok (ascii "ab0\r\n\r\n") :=
  chunked_prefix_whole_or_fail (fun _ => true) (fun _ => rfl) false
    [ascii "ab", ascii "0\r\n\r\n"] (by decide) (by decide)

/-! ## responses with a length -/

/-- What `serve_full` sends for a file. -/
def serveFull (mpd : Bool) (file : List UInt8) : List UInt8 :=
  httpHeaders 200 (contentType mpd) file.length false ++ file

/-- The header block in front of the length header. -/
def lengthHeaderFront (mpd : Bool) : List UInt8 :=
  ascii "HTTP/1.1 200 OK\r\nContent-Type: " ++ ascii (contentType mpd) ++ ascii "\r\n"

/-- The header block behind the digits of the length.  The length header is cut
at 31 bytes, so `k` bytes are left for its line end. -/
def lengthHeaderBack (k : Nat) : List UInt8 :=
  (ascii "\r\n").take k ++ ascii "Cache-Control: no-cache\r\nConnection: close\r\n" ++
    ascii "Access-Control-Allow-Origin: *\r\n\r\n"

/-- The digits of a length that fit its header. -/
def lengthDigits (n : Nat) : List UInt8 := (Digits.print 10 n).take 15

theorem httpHeaders_length (mpd : Bool) (n : Nat) :
    httpHeaders 200 (contentType mpd) n false =
      lengthHeaderFront mpd ++ (67 :: ascii "ontent-Length: " ++ (lengthDigits n ++
        lengthHeaderBack (15 - (Digits.print 10 n).length))) := by
  have hcode : Digits.print 10 200 = ascii "200" := by
    simp [Digits.print]
    decide
  have hcut : (ascii "Content-Length: " ++ Digits.print 10 n ++ ascii "\r\n").take 31 =
      67 :: ascii "ontent-Length: " ++ (lengthDigits n ++
        (ascii "\r\n").take (15 - (Digits.print 10 n).length)) := by
    rw [List.append_assoc, List.take_append, List.take_of_length_le (by decide), List.take_append]
    rfl
  have hfront : ascii "HTTP/1.1 " ++ (ascii "200" ++ (ascii " OK\r\n" ++ ascii "Content-Type: ")) =
      ascii "HTTP/1.1 200 OK\r\nContent-Type: " := by decide
  have hback : ascii "Cache-Control: no-cache\r\n" ++ ascii "Connection: close\r\n" =
      ascii "Cache-Control: no-cache\r\nConnection: close\r\n" := by decide
  have hback' : ascii "Access-Control-Allow-Origin: *\r\n" ++ ascii "\r\n" =
      ascii "Access-Control-Allow-Origin: *\r\n\r\n" := by decide
  rw [httpHeaders, if_neg Bool.false_ne_true, if_pos (by omega), Int.toNat_natCast, hcut, hcode,
    lengthHeaderFront, lengthHeaderBack, ← hfront, ← hback, ← hback']
  simp only [List.append_assoc]

/-- What the client looks for in the fixed parts of the block. -/
theorem lengthHeaderFront_facts (mpd : Bool) :
    Misses (ascii "\r\n\r\n") (lengthHeaderFront mpd ++ 67 :: ascii "ontent-Length: ") ∧
      Misses (ascii "Transfer-Encoding:") (lengthHeaderFront mpd ++ 67 :: ascii "ontent-Length: ") ∧
      Misses (ascii "Content-Length:") (lengthHeaderFront mpd) := by
  revert mpd
  decide +kernel

theorem misses_lengthHeaderName : Misses (ascii "Content-Length:") (ascii "ontent-Length: ") := by
  decide +kernel

theorem lengthHeaderBack_facts (k : Nat) :
    findHeaderEnd (lengthHeaderBack k) = some (lengthHeaderBack k).length ∧
      18 < (lengthHeaderBack k).length ∧
      Misses (ascii "Transfer-Encoding:") (lengthHeaderBack k) ∧
      Misses (ascii "Content-Length:") (lengthHeaderBack k) ∧
      (∀ b ∈ (lengthHeaderBack k).head?, isDecimal b = false) := by
  have hall : ∀ j ∈ List.range 3, findHeaderEnd (lengthHeaderBack j) = some (lengthHeaderBack j).length ∧
      18 < (lengthHeaderBack j).length ∧
      Misses (ascii "Transfer-Encoding:") (lengthHeaderBack j) ∧
      Misses (ascii "Content-Length:") (lengthHeaderBack j) ∧
      (∀ b ∈ (lengthHeaderBack j).head?, isDecimal b = false) := by
    decide +kernel
  have hmin : lengthHeaderBack k = lengthHeaderBack (min k 2) := by
    rw [lengthHeaderBack, lengthHeaderBack, ← List.take_take]
    rfl
  rw [hmin]
  exact hall _ (List.mem_range.mpr (by omega))

theorem isDecimal_of_mem_lengthDigits {n : Nat} {b : UInt8} (hb : b ∈ lengthDigits n) :
    isDecimal b = true := by
  obtain ⟨d, hd, rfl⟩ := Digits.lt_of_mem_print (by omega) (List.mem_of_mem_take hb)
  interval_cases d <;> decide

theorem lengthDigits_ne_nil (n : Nat) : lengthDigits n ≠ [] := by
  simpa [lengthDigits] using Digits.print_ne_nil 10 n

/-- Digits are neither letters nor line ends. -/
theorem misses_lengthDigits (n : Nat) {c : UInt8} (hc : c = 13 ∨ c = 84 ∨ c = 67)
    (pat : List UInt8) : Misses (c :: pat) (lengthDigits n) := by
  apply misses_of_head
  intro b hb
  obtain ⟨d, hd, rfl⟩ := Digits.lt_of_mem_print (by omega) (List.mem_of_mem_take hb)
  obtain rfl | rfl | rfl := hc <;> interval_cases d <;> decide

/-- The length `http_headers` writes: the first digits of the number. -/
def announced (n : Nat) : Nat := Digits.value 10 (lengthDigits n)

theorem announced_le (n : Nat) : announced n ≤ n ∧ announced n < 10 ^ 15 := by
  have hvalue : announced n = n / 10 ^ ((Digits.print 10 n).length - 15) :=
    Digits.value_take_print (by omega) (by omega) n 15
  refine ⟨hvalue.trans_le (Nat.div_le_self _ _), ?_⟩
  rw [hvalue, Nat.div_lt_iff_lt_mul (by positivity), ← pow_add]
  calc n < 10 ^ (Digits.print 10 n).length := Digits.lt_pow_length_print (by omega) n
    _ ≤ 10 ^ (15 + ((Digits.print 10 n).length - 15)) := Nat.pow_le_pow_right (by omega) (by omega)

/-- A length is announced as it is if it has at most 15 digits. -/
theorem announced_eq_iff (n : Nat) : announced n = n ↔ n < 10 ^ 15 := by
  constructor
  · intro h
    have hlt := (announced_le n).2
    omega
  · intro h
    rw [announced, lengthDigits,
      List.take_of_length_le (Digits.length_print_le (by omega) (by omega) h)]
    exact Digits.value_print (by omega) (by omega) n

/-- The value of the length header is read back from where the header is found. -/
theorem strtol10_lengthHeader (mpd : Bool) (n : Nat) (body : List UInt8) (hdrEnd : Nat) :
    strtol10 (headerValue (httpHeaders 200 (contentType mpd) n false ++ body)
      (lengthHeaderFront mpd).length 15 hdrEnd) = announced n := by
  obtain ⟨-, hback, -, -, hstop⟩ := lengthHeaderBack_facts (15 - (Digits.print 10 n).length)
  have hlt := (announced_le n).2
  have hread : leadingInt (lengthDigits n ++
      (lengthHeaderBack (15 - (Digits.print 10 n).length) ++ body)) = announced n := by
    refine leadingInt_digits (lengthDigits_ne_nil n) (fun b hb => isDecimal_of_mem_lengthDigits hb) ?_
    rwa [List.head?_append_of_ne_nil _ (List.ne_nil_of_length_pos (by omega))]
  -- behind the name come one space and the digits
  have hdrop : (httpHeaders 200 (contentType mpd) n false ++ body).drop
      ((lengthHeaderFront mpd).length + 15) = 32 :: (lengthDigits n ++
        (lengthHeaderBack (15 - (Digits.print 10 n).length) ++ body)) := by
    rw [httpHeaders_length, List.append_assoc, ← List.drop_drop, List.drop_left]
    simp only [List.append_assoc, List.cons_append]
    rfl
  have hvalue : leadingInt (headerValue (httpHeaders 200 (contentType mpd) n false ++ body)
      (lengthHeaderFront mpd).length 15 hdrEnd) = announced n := by
    simp only [headerValue, hdrop]
    obtain ⟨d, ds, hdigits⟩ := List.exists_cons_of_ne_nil (lengthDigits_ne_nil n)
    have hd : ¬ (d = 32 ∨ d = 9 ∨ d = 58) := by
      have hdec : isDecimal d = true := isDecimal_of_mem_lengthDigits (by rw [hdigits]; simp)
      rintro (rfl | rfl | rfl) <;> exact absurd hdec (by decide)
    rw [hdigits] at hread ⊢
    cases hdrEnd - ((lengthHeaderFront mpd).length + 15) with
    | zero =>
        rw [List.take_zero, List.takeWhile_nil, List.length_nil, List.drop_zero, leadingInt_space]
        exact hread
    | succ m =>
        have hone : ((32 :: (d :: ds ++ (lengthHeaderBack (15 - (Digits.print 10 n).length) ++
            body))).take (m + 1)).takeWhile (fun c => c = 32 ∨ c = 9 ∨ c = 58) = [32] := by
          rw [List.take_succ_cons, List.takeWhile_cons_of_pos (by decide)]
          cases m with
          | zero => rfl
          | succ m =>
              rw [List.cons_append, List.take_succ_cons,
                List.takeWhile_cons_of_neg (by simpa using hd)]
        rw [hone]
        exact hread
  rw [strtol10, hvalue, longMax]
  omega

theorem length_lengthHeader (mpd : Bool) (n : Nat) :
    (httpHeaders 200 (contentType mpd) n false).length =
      (lengthHeaderFront mpd).length + 16 + (lengthDigits n).length +
        (lengthHeaderBack (15 - (Digits.print 10 n).length)).length := by
  rw [httpHeaders_length]
  simp only [List.length_append, List.length_cons, show (ascii "ontent-Length: ").length = 15 from rfl]
  omega

theorem findHeaderEnd_lengthHeader (mpd : Bool) (n : Nat) (body : List UInt8) :
    findHeaderEnd (httpHeaders 200 (contentType mpd) n false ++ body) =
      some (httpHeaders 200 (contentType mpd) n false).length := by
  obtain ⟨hfront, -, -⟩ := lengthHeaderFront_facts mpd
  obtain ⟨hback, -, -, -, -⟩ := lengthHeaderBack_facts (15 - (Digits.print 10 n).length)
  have hdigits : Misses (ascii "\r\n\r\n") (lengthDigits n) :=
    misses_lengthDigits n (.inl rfl) (ascii "\n\r\n")
  rw [length_lengthHeader, httpHeaders_length, ← List.append_assoc, ← List.append_assoc,
    List.append_assoc _ (lengthHeaderBack _), findHeaderEnd_skip (hfront.append hdigits),
    (findHeaderEnd_append hback body).2]
  simp only [Option.map_some, List.length_append, List.length_cons,
    show (ascii "ontent-Length: ").length = 15 from rfl]
  congr 1
  omega

/-- The name of the length header is found in one place of the block. -/
theorem contentLength_at (mpd : Bool) (n : Nat) (body : List UInt8) {i : Nat}
    (hi : i < (httpHeaders 200 (contentType mpd) n false).length) :
    startsNoCase ((httpHeaders 200 (contentType mpd) n false ++ body).drop i)
      (ascii "Content-Length:") = true ↔ i = (lengthHeaderFront mpd).length := by
  obtain ⟨-, -, hfront⟩ := lengthHeaderFront_facts mpd
  obtain ⟨-, -, -, hback, -⟩ := lengthHeaderBack_facts (15 - (Digits.print 10 n).length)
  rw [length_lengthHeader] at hi
  rw [httpHeaders_length, List.append_assoc]
  generalize lengthHeaderBack (15 - (Digits.print 10 n).length) = back at *
  have hdigits : Misses (ascii "Content-Length:") (lengthDigits n) :=
    misses_lengthDigits n (.inr (.inr rfl)) (ascii "ontent-Length:")
  have hrest : Misses (ascii "Content-Length:")
      (ascii "ontent-Length: " ++ (lengthDigits n ++ back)) :=
    misses_lengthHeaderName.append (hdigits.append hback)
  obtain hlt | rfl | hgt := Nat.lt_trichotomy i (lengthHeaderFront mpd).length
  · rw [hfront.drop hlt]
    exact ⟨fun h => absurd h Bool.false_ne_true, fun h => absurd h hlt.ne⟩
  · rw [List.drop_left]
    exact ⟨fun _ => rfl, fun _ => rfl⟩
  · obtain ⟨j, rfl⟩ : ∃ j, i = (lengthHeaderFront mpd).length + (j + 1) :=
      ⟨i - (lengthHeaderFront mpd).length - 1, by omega⟩
    have hj : j < (ascii "ontent-Length: " ++ (lengthDigits n ++ back)).length := by
      simp only [List.length_append, show (ascii "ontent-Length: ").length = 15 from rfl]
      omega
    rw [← List.drop_drop, List.drop_left, List.cons_append, List.cons_append, List.drop_succ_cons,
      hrest.drop hj]
    exact ⟨fun h => absurd h Bool.false_ne_true, fun h => absurd h hgt.ne'⟩

/-- The client reads the block: status 200, no chunks, and the announced
length. -/
theorem parse_lengthHeader (mpd : Bool) (n : Nat) (body : List UInt8) :
    let hdr := httpHeaders 200 (contentType mpd) n false
    12 ≤ hdr.length ∧ httpStatus (hdr ++ body) = 200 ∧
      findHeaderEnd (hdr ++ body) = some hdr.length ∧
      scanHeaders (hdr ++ body) hdr.length = (false, (announced n : Int)) := by
  intro hdr
  have hhdr : hdr = _ := httpHeaders_length mpd n
  have hlen : hdr.length = _ := length_lengthHeader mpd n
  obtain ⟨-, hback, hbackTe, -, -⟩ := lengthHeaderBack_facts (15 - (Digits.print 10 n).length)
  have hte : Misses (ascii "Transfer-Encoding:") hdr := by
    have hdigits : Misses (ascii "Transfer-Encoding:") (lengthDigits n) :=
      misses_lengthDigits n (.inr (.inl rfl)) (ascii "ransfer-Encoding:")
    rw [hhdr, ← List.append_assoc]
    exact (lengthHeaderFront_facts mpd).2.1.append (hdigits.append hbackTe)
  refine ⟨by omega, ?_, findHeaderEnd_lengthHeader mpd n body, ?_⟩
  · have hfirst : lengthHeaderFront mpd = ascii "HTTP/1.1 200 " ++
        (ascii "OK\r\nContent-Type: " ++ ascii (contentType mpd) ++ ascii "\r\n") := rfl
    rw [hhdr, hfirst, List.append_assoc, List.append_assoc]
    exact httpStatus_ok _
  · rw [scanHeaders_length (k := (lengthHeaderFront mpd).length) (by omega)
      (fun i hi => hte.drop (by omega) body)
      (fun i hi => contentLength_at mpd n body (show i < hdr.length by omega)),
      strtol10_lengthHeader]

/-- What `http_get` makes of the block and the part of the file behind it: no
more than was announced, and whatever there is of that. -/
theorem httpGet_lengthHeader (alloc : Nat → Bool) (mpd : Bool) (n : Nat) (body : List UInt8) :
    httpGet alloc (httpHeaders 200 (contentType mpd) n false ++ body) =
      if 0 < min (announced n) body.length ∧ alloc (min (announced n) body.length) = false then .fail
      else .ok (body.take (announced n)) := by
  obtain ⟨hmin, hstatus, hend, hscan⟩ := parse_lengthHeader mpd n body
  have hlen : (if 0 ≤ (announced n : Int) ∧ (announced n : Int).toNat <
      (httpHeaders 200 (contentType mpd) n false ++ body).length -
        (httpHeaders 200 (contentType mpd) n false).length then (announced n : Int).toNat
      else (httpHeaders 200 (contentType mpd) n false ++ body).length -
        (httpHeaders 200 (contentType mpd) n false).length) = min (announced n) body.length := by
    rw [Int.toNat_natCast, List.length_append]
    split <;> omega
  simp only [httpGet, hstatus, hend, hscan, List.drop_left, hlen]
  rw [if_neg (by rw [List.length_append]; omega), if_neg (by simp), if_neg (by simp)]
  have htake : body.take (min (announced n) body.length) = body.take (announced n) := by
    rw [List.take_eq_take_iff]
    omega
  rw [htake]
  by_cases hsome : 0 < min (announced n) body.length
  · rw [if_pos hsome]
    cases hall : alloc (min (announced n) body.length) with
    | true => rw [if_pos rfl, if_neg (fun h => Bool.false_ne_true h.2.symm)]
    | false => rw [if_neg Bool.false_ne_true, if_pos ⟨hsome, rfl⟩]
  · have hnone : body.take (announced n) = [] := by
      rw [← htake, Nat.eq_zero_of_not_pos hsome, List.take_zero]
    rw [if_neg hsome, if_neg (fun h => hsome h.1), hnone]

/-- What is expected of `http_get` on what came through of a response: no body
but the whole file, and an error for anything shorter than the response. -/
def TruncationIsError (alloc : Nat → Bool) (mpd : Bool) (file p : List UInt8) : Prop :=
  (∀ body, httpGet alloc p = .ok body → p = serveFull mpd file ∧ body = file) ∧
    (p ≠ serveFull mpd file → httpGet alloc p = .fail)

/-- The part of a file in a response cut to `p`: as much as its header
announces, or what there is. -/
def receivedLength (mpd : Bool) (file p : List UInt8) : Nat :=
  min (announced file.length)
    (p.length - (httpHeaders 200 (contentType mpd) file.length false).length)

/-- **When a truncated response is an error**: when it is cut inside the header
block, and never once the block is complete, unless memory runs out.  The whole
response gives the whole file if its length has at most 15 digits. -/
theorem truncation_is_error_iff (alloc : Nat → Bool) (mpd : Bool) (file p : List UInt8)
    (hp : p <+: serveFull mpd file) :
    TruncationIsError alloc mpd file p ↔
      p.length < (httpHeaders 200 (contentType mpd) file.length false).length ∨
      (0 < receivedLength mpd file p ∧ alloc (receivedLength mpd file p) = false) ∨
      (p = serveFull mpd file ∧ file.length < 10 ^ 15) := by
  have hhdr := parse_lengthHeader mpd file.length []
  simp only [List.append_nil] at hhdr
  obtain ⟨hcut, hlt⟩ | ⟨q, rfl, hq⟩ := prefix_append_cases hp
  · have hfail := httpGet_cutHeader alloc hhdr.2.2.1 hcut hlt
    exact ⟨fun _ => .inl hlt, fun _ => ⟨fun body h => (by rw [hfail] at h; cases h), fun _ => hfail⟩⟩
  · have hget := httpGet_lengthHeader alloc mpd file.length q
    have hreceived : receivedLength mpd file
        (httpHeaders 200 (contentType mpd) file.length false ++ q) =
          min (announced file.length) q.length := by
      rw [receivedLength, List.length_append, Nat.add_sub_cancel_left]
    have hwhole : httpHeaders 200 (contentType mpd) file.length false ++ q = serveFull mpd file ↔
        q = file := by
      rw [serveFull, List.append_right_inj]
    rw [TruncationIsError, hreceived, hwhole, hget]
    by_cases hmem : 0 < min (announced file.length) q.length ∧
        alloc (min (announced file.length) q.length) = false
    · rw [if_pos hmem]
      exact ⟨fun _ => .inr (.inl hmem), fun _ => ⟨fun body h => (by cases h), fun _ => rfl⟩⟩
    · rw [if_neg hmem]
      constructor
      · intro ⟨hbody, _⟩
        obtain ⟨rfl, hall⟩ := hbody _ rfl
        have hle := (announced_le q.length).1
        have hlen := congrArg List.length hall
        rw [List.length_take] at hlen
        exact .inr (.inr ⟨rfl, (announced_eq_iff q.length).mp (by omega)⟩)
      · rintro (hlt | hfail | ⟨rfl, hlen⟩)
        · rw [List.length_append] at hlt
          omega
        · exact absurd hfail hmem
        · rw [(announced_eq_iff q.length).mpr hlen, List.take_length]
          refine ⟨fun body h => ⟨rfl, (HttpResult.ok.inj h).symm⟩, fun h => absurd rfl h⟩

/-- A file of two bytes, cut behind the first. -/
theorem oneOfTwo_cut :
    httpHeaders 200 (contentType false) 2 false ++ [1] <+: serveFull false [1, 2] :=
  (List.prefix_append_right_inj _).mpr (by decide)

/-- The whole response for a file of two bytes, and the one without the last
byte. -/
theorem truncation_is_error_iff_twoBytes :
    TruncationIsError (fun _ => true) false [1, 2] (serveFull false [1, 2]) ∧
      ¬ TruncationIsError (fun _ => true) false [1, 2]
        (httpHeaders 200 (contentType false) 2 false ++ [1]) := by
  constructor
  · exact (truncation_is_error_iff _ _ _ _ (List.prefix_refl _)).mpr (.inr (.inr ⟨rfl, by decide⟩))
  · rw [truncation_is_error_iff _ _ _ _ oneOfTwo_cut]
    rintro (hlt | ⟨-, hmem⟩ | ⟨hall, -⟩)
    · rw [List.length_append] at hlt
      exact absurd hlt (by simp)
    · exact absurd hmem (by simp)
    · exact absurd (List.append_cancel_left hall) (by decide)

/-- Every truncated response is an error. -/
def TruncationAlwaysError : Prop :=
  ∀ (alloc : Nat → Bool) (mpd : Bool) (file p : List UInt8), p <+: serveFull mpd file →
    TruncationIsError alloc mpd file p

/-- A file of two bytes, cut behind the first: `http_get` returns that byte. -/
theorem truncationAlwaysError_fails : ¬ TruncationAlwaysError := by
  intro h
  obtain ⟨hbody, -⟩ := h (fun _ => true) false [1, 2] _ oneOfTwo_cut
  have hget := httpGet_lengthHeader (fun _ => true) false 2 [1]
  rw [(announced_eq_iff 2).mpr (by omega), if_neg (by simp)] at hget
  exact absurd (hbody [1] hget).2 (by decide)

end Vmc
