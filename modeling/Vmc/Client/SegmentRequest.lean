import Vmc.Client.ManifestBounds
import Vmc.Sim.ConnHandler

/-!
# Vmc.Client.SegmentRequest

A segment as the client asks for it (`http_get` of `apps/thinclient/main.c` on a
URL of `run_dash`'s reader), and as the server's connection handler answers.

Client and server agree on a text: the client prints base, stream and number
into a URL, takes host and path out of it and writes the request; the server
reads the path off the first line, and stream and number off the path
(`request_roundtrip`).  Behind that, `conn_answers` says what the client gets
whatever the muxer does in the meantime, and `present_segment_served` that a
segment which is there is never refused.
-/

namespace Vmc

open Bytes CInt

/-! ## URL and request -/

/-- `%05d` of a number that is not negative. -/
def padded (n : Nat) : List UInt8 :=
  List.replicate (5 - (Digits.print 10 n).length) 48 ++ Digits.print 10 n

/-- The path of a media segment. -/
def segmentPath (stream num : Nat) : List UInt8 :=
  ascii "/chunk-stream" ++ (Digits.print 10 stream ++ 45 :: (padded num ++ ascii ".m4s"))

/-- `seg_url`. -/
def segmentUrl (base : List UInt8) (stream num : Nat) : List UInt8 := base ++ segmentPath stream num

/-- Where a URL leads. -/
structure HttpTarget where
  host : List UInt8
  port : Int
  path : List UInt8
deriving DecidableEq, Repr

/-- How `http_get` takes a URL apart; there are 256 bytes for host and port. -/
def parseUrl (url : List UInt8) : Option HttpTarget :=
  (strstr url (ascii "://")).map fun b =>
    let p := b.drop 3
    let hostPort :=
      match strchr p 47 with
      | some slash => (p.take (p.length - slash.length)).take 255
      | none => p.take 255
    let path := (strchr p 47).getD (ascii "/")
    match strchr hostPort 58 with
    | some colon =>
        { host := hostPort.take (hostPort.length - colon.length)
          port := atoi (colon.drop 1)
          path := path }
    | none => { host := hostPort, port := 80, path := path }

/-- The request `http_get` sends, if it fits 2048 bytes with its NUL. -/
def httpRequest (t : HttpTarget) : Option (List UInt8) :=
  let req := ascii "GET " ++ t.path ++ ascii " HTTP/1.1\r\nHost: " ++ t.host ++
    ascii "\r\nConnection: close\r\n\r\n"
  if req.length < 2048 then some req else none

/-! ## printed numbers, read back -/

theorem isDecimal_of_mem_print {n : Nat} {b : UInt8} (hb : b ∈ Digits.print 10 n) :
    isDecimal b = true := by
  obtain ⟨d, hd, rfl⟩ := Digits.lt_of_mem_print (by omega) hb
  interval_cases d <;> decide

theorem isDecimal_of_mem_padded {n : Nat} {b : UInt8} (hb : b ∈ padded n) : isDecimal b = true := by
  obtain hb | hb := List.mem_append.mp hb
  · rw [(List.mem_replicate.mp hb).2]
    decide
  · exact isDecimal_of_mem_print hb

theorem padded_ne_nil (n : Nat) : padded n ≠ [] := fun h =>
  Digits.print_ne_nil 10 n (List.append_eq_nil_iff.mp h).2

/-- Leading zeros do not change a number. -/
theorem value_padded (n : Nat) : Digits.value 10 (padded n) = n := by
  have hzeros : ∀ k ds, Digits.value 10 (List.replicate k 48 ++ ds) = Digits.value 10 ds := by
    intro k ds
    induction k with
    | zero => rfl
    | succ k ih => exact ih
  rw [padded, hzeros, Digits.value_print (by omega) (by omega)]

theorem length_padded_le {n : Nat} (h : n < 10 ^ 10) : (padded n).length ≤ 10 := by
  have hlen := Digits.length_print_le (b := 10) (k := 10) (by omega) (by omega) h
  rw [padded, List.length_append, List.length_replicate]
  omega

/-- A run of digits in front of something else, as `%d` reads it. -/
theorem scanInt_digits {ds rest : List UInt8} (hne : ds ≠ [])
    (hdec : ∀ b ∈ ds, isDecimal b = true) (hstop : ∀ b ∈ rest.head?, isDecimal b = false) :
    scanInt (ds ++ rest) = some (atoi (ds ++ rest), rest) := by
  obtain ⟨d, ds', rfl⟩ := List.exists_cons_of_ne_nil hne
  have hd : isDecimal d = true := hdec d (by simp)
  have hkeep : ((d :: ds') ++ rest).dropWhile isSpace = (d :: ds') ++ rest := by
    rw [List.cons_append, List.dropWhile_cons_of_neg]
    rw [isSpace_of_isDecimal hd]
    exact Bool.false_ne_true
  have hread := takeWhile_append_of_stop hdec hstop
  have hleft : ((d :: ds') ++ rest).dropWhile isDecimal = rest := by
    have hsplit := List.takeWhile_append_dropWhile (p := isDecimal) (l := (d :: ds') ++ rest)
    rw [hread] at hsplit
    exact List.append_cancel_left hsplit
  have hminus : d ≠ 45 := by
    rintro rfl
    exact absurd hd (by decide)
  have hplus : d ≠ 43 := by
    rintro rfl
    exact absurd hd (by decide)
  have hdigits : scanDigits ((d :: ds') ++ rest) = d :: ds' := by
    rw [scanDigits, hkeep]
    split
    · rename_i heq
      exact absurd (List.cons.inj heq).1 hminus
    · rename_i heq
      exact absurd (List.cons.inj heq).1 hplus
    · exact hread
  have hbehind : behindInt ((d :: ds') ++ rest) = rest := by
    rw [behindInt, hkeep]
    split
    · rename_i heq
      exact absurd (List.cons.inj heq).1 hminus
    · rename_i heq
      exact absurd (List.cons.inj heq).1 hplus
    · exact hleft
  rw [scanInt, hdigits, if_neg (List.cons_ne_nil d ds'), hbehind]

/-- The number `atoi` reads off a run of digits. -/
theorem atoi_digits {ds rest : List UInt8} (hne : ds ≠ []) (hdec : ∀ b ∈ ds, isDecimal b = true)
    (hstop : ∀ b ∈ rest.head?, isDecimal b = false) (hmax : (Digits.value 10 ds : Int) ≤ intMax) :
    atoi (ds ++ rest) = Digits.value 10 ds := by
  rw [intMax_eq] at hmax
  rw [atoi, strtol10, leadingInt_digits hne hdec hstop, longMax, max_eq_right (by omega),
    min_eq_right (by omega), toInt_of_range (by rw [intMax_eq]; omega) (by rw [intMax_eq]; omega)]

/-! ## the path -/

section

variable {stream num : Nat}

/-- The bytes of a segment's path. -/
theorem mem_segmentPath {b : UInt8} (hb : b ∈ segmentPath stream num) :
    isSpace b = false ∧ b ≠ 0 := by
  have hdigit : isDecimal b = true → isSpace b = false ∧ b ≠ 0 := by
    intro hdec
    refine ⟨isSpace_of_isDecimal hdec, ?_⟩
    rintro rfl
    exact absurd hdec (by decide)
  have hfront : ∀ c ∈ ascii "/chunk-stream", isSpace c = false ∧ c ≠ 0 := by decide +kernel
  have hback : ∀ c ∈ ascii ".m4s", isSpace c = false ∧ c ≠ 0 := by decide +kernel
  obtain hb | hb := List.mem_append.mp hb
  · exact hfront b hb
  · obtain hb | hb := List.mem_append.mp hb
    · exact hdigit (isDecimal_of_mem_print hb)
    · obtain rfl | hb := List.mem_cons.mp hb
      · decide
      · obtain hb | hb := List.mem_append.mp hb
        · exact hdigit (isDecimal_of_mem_padded hb)
        · exact hback b hb

theorem length_segmentPath_le (hstream : stream ≤ intMax) (hnum : num ≤ intMax) :
    (segmentPath stream num).length ≤ 38 := by
  rw [intMax_eq] at hstream hnum
  have hs := Digits.length_print_le (b := 10) (n := stream) (k := 10) (by omega) (by omega) (by omega)
  have hn := length_padded_le (n := num) (by omega)
  have hfront : (ascii "/chunk-stream").length = 13 := rfl
  have hback : (ascii ".m4s").length = 4 := rfl
  simp only [segmentPath, List.length_append, List.length_cons, hfront, hback]
  omega

/-- The number behind the second dash. -/
theorem atoi_padded (hnum : num ≤ intMax) : atoi (padded num ++ ascii ".m4s") = num := by
  have hstop : ∀ b ∈ (ascii ".m4s").head?, isDecimal b = false := by decide +kernel
  rw [atoi_digits (padded_ne_nil num) (fun b hb => isDecimal_of_mem_padded hb) hstop, value_padded]
  rw [value_padded]
  exact hnum

/-- The server reads stream and number as the client wrote them. -/
theorem scanSegment_segmentPath (hstream : stream ≤ intMax) (hnum : num ≤ intMax) :
    scanSegment (segmentPath stream num) = some ((stream : Int), (num : Int)) := by
  have hstop : ∀ b ∈ (ascii ".m4s").head?, isDecimal b = false := by decide +kernel
  have hdash : ∀ b ∈ ((45 : UInt8) :: (padded num ++ ascii ".m4s")).head?, isDecimal b = false := by
    intro b hb
    obtain rfl := Option.mem_some_iff.mp hb
    decide
  have hvalue : Digits.value 10 (Digits.print 10 stream) = stream :=
    Digits.value_print (by omega) (by omega) stream
  have hpre : (ascii "/chunk-stream").isPrefixOf (segmentPath stream num) = true :=
    List.isPrefixOf_iff_prefix.mpr (List.prefix_append _ _)
  have hdrop : (segmentPath stream num).drop 13 =
      Digits.print 10 stream ++ 45 :: (padded num ++ ascii ".m4s") := rfl
  have hatoi : atoi (Digits.print 10 stream ++ 45 :: (padded num ++ ascii ".m4s")) = stream := by
    rw [atoi_digits (Digits.print_ne_nil 10 stream) (fun b hb => isDecimal_of_mem_print hb) hdash,
      hvalue]
    rw [hvalue]
    exact hstream
  have hnumber : scanInt (padded num ++ ascii ".m4s") = some ((num : Int), ascii ".m4s") := by
    rw [scanInt_digits (padded_ne_nil num) (fun b hb => isDecimal_of_mem_padded hb) hstop,
      atoi_padded hnum]
  rw [scanSegment, if_pos hpre, hdrop, scanInt_digits (Digits.print_ne_nil 10 stream)
    (fun b hb => isDecimal_of_mem_print hb) hdash, hatoi]
  simp only [Option.bind_some, List.head?_cons, if_true, List.drop_succ_cons, List.drop_zero,
    hnumber, Option.map_some]

/-- The file is one of the stream, with its number. -/
theorem chunkNumber_segmentPath (hnum : num ≤ intMax) :
    chunkNumber stream ((segmentPath stream num).drop 1) = some (num : Int) := by
  have hprint : printInt stream = Digits.print 10 stream := by
    rw [printInt, if_neg (by omega), Int.natAbs_natCast]
  have hsplit : (segmentPath stream num).drop 1 =
      chunkPrefix stream ++ (padded num ++ ascii ".m4s") := by
    rw [chunkPrefix, hprint, List.append_assoc, List.append_assoc]
    rfl
  have hpre : (chunkPrefix stream).isPrefixOf (chunkPrefix stream ++ (padded num ++ ascii ".m4s")) =
      true := List.isPrefixOf_iff_prefix.mpr (List.prefix_append _ _)
  rw [chunkNumber, hsplit, if_pos hpre, List.drop_left, atoi_padded hnum]

end

/-! ## from URL to path -/

/-- What `strstr` returns of a text, with the text in front of it. -/
theorem strstr_split {s pat r : List UInt8} (h : strstr s pat = some r) :
    ∃ pre, s = pre ++ r ∧ strstr (pre ++ pat) pat = some pat := by
  induction s with
  | nil =>
      rw [strstr] at h
      split at h
      · rename_i hnil
        cases h
        exact ⟨[], rfl, strstr_of_prefix (List.prefix_refl pat)⟩
      · cases h
  | cons c cs ih =>
      rw [strstr] at h
      split at h
      · obtain rfl := Option.some.inj h
        exact ⟨[], rfl, strstr_of_prefix (List.prefix_refl pat)⟩
      · rename_i hpre
        obtain ⟨pre, rfl, hfirst⟩ := ih h
        refine ⟨c :: pre, rfl, ?_⟩
        rw [List.cons_append, strstr, if_neg, hfirst]
        intro hover
        -- an occurrence here would be one in the text, for what follows begins with the pattern
        refine hpre (List.isPrefixOf_iff_prefix.mpr ?_)
        refine (List.isPrefixOf_iff_prefix.mp hover).trans ?_
        exact (List.prefix_append_right_inj (c :: pre)).mpr (prefix_of_strstr h).1

/-- The base of a URL: scheme and host, and no slash behind them. -/
theorem baseUrl_shape {url base : List UInt8} (h : baseUrl url = .ok base) :
    ∃ pre auth, base = pre ++ (ascii "://" ++ auth) ∧ 47 ∉ auth ∧ base.length < 256 ∧
      strstr (pre ++ ascii "://") (ascii "://") = some (ascii "://") := by
  unfold baseUrl at h
  cases hb : strstr url (ascii "://") with
  | none =>
      rw [hb] at h
      cases h
  | some b =>
      obtain ⟨pre, rfl, hfirst⟩ := strstr_split hb
      obtain ⟨rest, rfl⟩ := (prefix_of_strstr hb).1
      have hdrop : (ascii "://" ++ rest).drop 3 = rest := rfl
      have hscheme : (pre ++ (ascii "://" ++ rest)).length - (ascii "://" ++ rest).length + 3 =
          pre.length + 3 := by
        rw [List.length_append]
        omega
      rw [hb] at h
      simp only [hdrop, hscheme] at h
      generalize hn : (if (rest.takeWhile (· ≠ 47)).length ≥ 256 then 255
        else (rest.takeWhile (· ≠ 47)).length) = n at h
      have hn' : n ≤ (rest.takeWhile (· ≠ 47)).length := by
        rw [← hn]
        split <;> omega
      split at h
      · rename_i hfits
        have htake : (pre ++ (ascii "://" ++ rest)).take (pre.length + 3 + n) =
            pre ++ (ascii "://" ++ rest.take n) := by
          have hthree : (ascii "://").length = 3 := rfl
          rw [List.take_append, List.take_of_length_le (by omega), List.take_append,
            List.take_of_length_le (by omega), hthree]
          congr 3
          omega
        rw [htake] at h
        refine ⟨pre, rest.take n, (Except.ok.inj h).symm, ?_, ?_, hfirst⟩
        · intro hmem
          have hpre : rest.take n <+: rest.takeWhile (· ≠ 47) :=
            List.prefix_of_prefix_length_le (List.take_prefix n rest) (List.takeWhile_prefix _)
              ((List.length_take_le n rest).trans hn')
          have hne := List.mem_takeWhile_imp (hpre.subset hmem)
          simp at hne
        · rw [← Except.ok.inj h, ← htake]
          exact lt_of_le_of_lt (List.length_take_le _ _) hfits
      · cases h

section

variable {stream num : Nat}

theorem segmentPath_cons (stream num : Nat) :
    segmentPath stream num = 47 :: (segmentPath stream num).drop 1 := rfl

/-- The client takes the path out of the URL as it was put in. -/
theorem parseUrl_segmentUrl {url base : List UInt8} (h : baseUrl url = .ok base) :
    ∃ t, parseUrl (segmentUrl base stream num) = some t ∧ t.path = segmentPath stream num ∧
      t.host.length ≤ 255 := by
  obtain ⟨pre, auth, rfl, hauth, hlen, hfirst⟩ := baseUrl_shape h
  have hfind : strstr (segmentUrl (pre ++ (ascii "://" ++ auth)) stream num) (ascii "://") =
      some (ascii "://" ++ (auth ++ segmentPath stream num)) := by
    have happ := strstr_append hfirst (auth ++ segmentPath stream num)
    rw [← happ, segmentUrl]
    congr 1
    simp only [List.append_assoc]
  have hdrop : (ascii "://" ++ (auth ++ segmentPath stream num)).drop 3 =
      auth ++ segmentPath stream num := rfl
  have hslash : strchr (auth ++ segmentPath stream num) 47 = some (segmentPath stream num) := by
    have hmem : (47 : UInt8) ∈ auth ++ segmentPath stream num := by
      rw [segmentPath_cons]
      simp
    rw [strchr, if_pos hmem, List.dropWhile_append_of_pos, segmentPath_cons,
      List.dropWhile_cons_of_neg (by simp)]
    intro c hc
    refine decide_eq_true ?_
    rintro rfl
    exact hauth hc
  have hhost : ((auth ++ segmentPath stream num).take
      ((auth ++ segmentPath stream num).length - (segmentPath stream num).length)).take 255 =
        auth.take 255 := by
    rw [List.length_append, Nat.add_sub_cancel, List.take_left]
  have hle := List.length_take_le 255 auth
  simp only [parseUrl, hfind, Option.map_some, hdrop, hslash, hhost, Option.getD_some]
  cases strchr (auth.take 255) 58 with
  | none => exact ⟨_, rfl, rfl, hle⟩
  | some colon => exact ⟨_, rfl, rfl, (List.length_take_le' _ _).trans hle⟩

/-! ## the request line -/

/-- A word in front of a blank. -/
theorem scanWord_append {w rest : List UInt8} {width : Nat} (hne : w ≠ [])
    (hword : ∀ b ∈ w, isSpace b = false) (hwidth : w.length ≤ width) :
    scanWord width (w ++ 32 :: rest) = some (w, 32 :: rest) := by
  obtain ⟨a, w, rfl⟩ := List.exists_cons_of_ne_nil hne
  have hkeep : ((a :: w) ++ 32 :: rest).dropWhile isSpace = (a :: w) ++ 32 :: rest := by
    rw [List.cons_append, List.dropWhile_cons_of_neg]
    rw [hword a (by simp)]
    exact Bool.false_ne_true
  have hread : (((a :: w) ++ 32 :: rest).take width).takeWhile (fun c => !isSpace c) = a :: w := by
    rw [List.take_append, List.take_of_length_le hwidth]
    refine takeWhile_append_of_stop (fun b hb => ?_) ?_
    · rw [hword b hb]
      rfl
    · intro b hb
      rw [List.head?_take] at hb
      split at hb
      · cases hb
      · obtain rfl := Option.mem_some_iff.mp hb
        decide
  simp only [scanWord, hkeep, hread, List.drop_left]
  rw [if_neg (List.cons_ne_nil a w)]

theorem scanWord_blank (width : Nat) (s : List UInt8) :
    scanWord width (32 :: s) = scanWord width s := by
  rw [scanWord, scanWord, List.dropWhile_cons_of_pos (by decide)]

/-- The first line of the request. -/
def requestLine (path : List UInt8) : List UInt8 := ascii "GET " ++ path ++ ascii " HTTP/1.1"

theorem scanWord_requestLine {path : List UInt8} (hne : path ≠ [])
    (hpath : ∀ b ∈ path, isSpace b = false) (hlen : path.length ≤ 511) :
    ((scanWord 7 (requestLine path)).bind fun (method, rest) =>
      (scanWord 511 rest).bind fun (p, _) => if method = ascii "GET" then some p else none) =
        some path := by
  have hline : requestLine path = ascii "GET" ++ 32 :: (path ++ 32 :: ascii "HTTP/1.1") := by
    simp only [requestLine, List.append_assoc]
    rfl
  rw [hline, scanWord_append (by decide) (by decide +kernel) (by decide)]
  simp only [Option.bind_some, scanWord_blank, scanWord_append hne hpath hlen, if_true]

/-- A line without a line end in it is found up to the first one behind it. -/
theorem strstr_lineEnd {l : List UInt8} (hl : 13 ∉ l) (rest : List UInt8) :
    strstr (l ++ 13 :: 10 :: rest) (ascii "\r\n") = some (13 :: 10 :: rest) := by
  induction l with
  | nil => exact strstr_of_prefix (List.prefix_append (ascii "\r\n") rest)
  | cons c l ih =>
      rw [List.cons_append, strstr, if_neg, ih fun h => hl (List.mem_cons_of_mem c h)]
      intro hpre
      obtain ⟨t, ht⟩ := List.isPrefixOf_iff_prefix.mp hpre
      refine hl ?_
      rw [← (List.cons.inj ht).1]
      exact List.mem_cons_self

/-- Nothing is read of a request cut inside its first line. -/
theorem strstr_cutLine {p : List UInt8} (hp : 10 ∉ p) : strstr p (ascii "\r\n") = none := by
  induction p with
  | nil => rfl
  | cons c p ih =>
      rw [strstr, if_neg, ih fun h => hp (List.mem_cons_of_mem c h)]
      intro hpre
      have hmem := (List.isPrefixOf_iff_prefix.mp hpre).subset (show (10 : UInt8) ∈ _ by decide)
      exact hp hmem

/-- What the server makes of a request that arrives cut anywhere: the path, or
nothing if the cut is inside the first line. -/
theorem requestPath_cut {path rest p : List UInt8} (hne : path ≠ [])
    (hpath : ∀ b ∈ path, isSpace b = false ∧ b ≠ 0) (hlen : path.length ≤ 511)
    (hreq : (requestLine path ++ 13 :: 10 :: rest).length ≤ 2047)
    (hp : p <+: requestLine path ++ 13 :: 10 :: rest) :
    requestPath p = if (requestLine path).length + 2 ≤ p.length then some path else none := by
  have hchars : ∀ b ∈ requestLine path, b ≠ 0 ∧ b ≠ 10 ∧ b ≠ 13 := by
    have hword : ∀ b ∈ path, b ≠ 0 ∧ b ≠ 10 ∧ b ≠ 13 := by
      intro b hb
      refine ⟨(hpath b hb).2, ?_, ?_⟩
      · rintro rfl
        exact absurd (hpath 10 hb).1 (by decide)
      · rintro rfl
        exact absurd (hpath 13 hb).1 (by decide)
    have hfront : ∀ b ∈ ascii "GET ", b ≠ 0 ∧ b ≠ 10 ∧ b ≠ 13 := by decide +kernel
    have hback : ∀ b ∈ ascii " HTTP/1.1", b ≠ 0 ∧ b ≠ 10 ∧ b ≠ 13 := by decide +kernel
    intro b hb
    obtain hb | hb := List.mem_append.mp hb
    · obtain hb | hb := List.mem_append.mp hb
      · exact hfront b hb
      · exact hword b hb
    · exact hback b hb
  have hcap : p.take 2047 = p := List.take_of_length_le (hp.length_le.trans hreq)
  rw [List.append_cons, List.append_cons] at hp
  obtain ⟨hcut, hlt⟩ | ⟨q, rfl, -⟩ := prefix_append_cases hp
  · have hno : 10 ∉ cstr p := by
      intro hmem
      have hmem := (List.takeWhile_prefix _).subset hmem
      -- the cut comes before the line feed
      have hshort : p <+: requestLine path ++ [13] :=
        List.prefix_of_prefix_length_le hcut (List.prefix_append _ _)
          (by simp only [List.length_append, List.length_cons, List.length_nil] at hlt ⊢; omega)
      obtain hin | hin := List.mem_append.mp (hshort.subset hmem)
      · exact (hchars 10 hin).2.1 rfl
      · simp at hin
    rw [requestPath, hcap, strstr_cutLine hno, if_neg]
    · rfl
    · simp only [List.length_append, List.length_cons, List.length_nil] at hlt
      omega
  · have htext : cstr ((requestLine path ++ [13] ++ [10]) ++ q) =
        requestLine path ++ 13 :: 10 :: cstr q := by
      rw [cstr, List.takeWhile_append_of_pos]
      · simp only [List.append_assoc, List.singleton_append]
        rfl
      · intro b hb
        simp only [List.append_assoc, List.singleton_append, List.mem_append, List.mem_cons,
          List.not_mem_nil, or_false] at hb
        obtain hb | rfl | rfl := hb
        · exact decide_eq_true (hchars b hb).1
        · decide
        · decide
    rw [requestPath, hcap, htext, strstr_lineEnd (fun h => (hchars 13 h).2.2 rfl), Option.bind_some,
      List.length_append, Nat.add_sub_cancel, List.take_left,
      scanWord_requestLine hne (fun b hb => (hpath b hb).1) hlen, if_pos]
    simp only [List.length_append, List.length_cons, List.length_nil]
    omega

end

/-- **Round trip of a segment request.**  For every manifest URL with a base,
every stream and every number: the client's request for the segment can be
written, and of any front part of it that one `recv` returns, the server reads
the path the client meant as soon as the first line is complete, and nothing
before.  Off the path it reads the client's stream and number. -/
theorem request_roundtrip (url base : List UInt8) (hbase : baseUrl url = .ok base)
    (stream num : Nat) (hstream : stream ≤ intMax) (hnum : num ≤ intMax) :
    scanSegment (segmentPath stream num) = some ((stream : Int), (num : Int)) ∧
    ∃ t req, parseUrl (segmentUrl base stream num) = some t ∧ httpRequest t = some req ∧
      ∀ p, p <+: req → requestPath p =
        if (requestLine (segmentPath stream num)).length + 2 ≤ p.length then
          some (segmentPath stream num)
        else none := by
  refine ⟨scanSegment_segmentPath hstream hnum, ?_⟩
  obtain ⟨t, ht, hpath, hhost⟩ := @parseUrl_segmentUrl stream num _ _ hbase
  have hlen := length_segmentPath_le hstream hnum
  have hreq : ascii "GET " ++ t.path ++ ascii " HTTP/1.1\r\nHost: " ++ t.host ++
      ascii "\r\nConnection: close\r\n\r\n" =
        requestLine (segmentPath stream num) ++ 13 :: 10 ::
          (ascii "Host: " ++ t.host ++ ascii "\r\nConnection: close\r\n\r\n") := by
    simp only [requestLine, hpath, List.append_assoc]
    rfl
  have hsize : (requestLine (segmentPath stream num) ++ 13 :: 10 ::
      (ascii "Host: " ++ t.host ++ ascii "\r\nConnection: close\r\n\r\n")).length ≤ 2047 := by
    have hget : (ascii "GET ").length = 4 := rfl
    have hhttp : (ascii " HTTP/1.1").length = 9 := rfl
    have hname : (ascii "Host: ").length = 6 := rfl
    have hclose : (ascii "\r\nConnection: close\r\n\r\n").length = 23 := rfl
    simp only [requestLine, List.length_append, List.length_cons, hget, hhttp, hname, hclose]
    omega
  have hwrite : httpRequest t = some (requestLine (segmentPath stream num) ++ 13 :: 10 ::
      (ascii "Host: " ++ t.host ++ ascii "\r\nConnection: close\r\n\r\n")) := by
    rw [httpRequest, hreq, if_pos (by omega)]
  refine ⟨t, _, ht, hwrite, fun p hp => ?_⟩
  refine requestPath_cut ?_ (fun b hb => mem_segmentPath hb) (by omega) hsize hp
  rw [segmentPath_cons]
  exact List.cons_ne_nil _ _

theorem request_roundtrip_first :
    baseUrl (ascii "http://sim:8080/live.mpd") = .ok (ascii "http://sim:8080") ∧
    scanSegment (segmentPath 0 1) = some (((0 : Nat) : Int), ((1 : Nat) : Int)) ∧
    ∃ t req, parseUrl (segmentUrl (ascii "http://sim:8080") 0 1) = some t ∧
      httpRequest t = some req ∧
      ∀ p, p <+: req → requestPath p =
        if (requestLine (segmentPath 0 1)).length + 2 ≤ p.length then some (segmentPath 0 1)
        else none := by
  have hbase : baseUrl (ascii "http://sim:8080/live.mpd") = .ok (ascii "http://sim:8080") := by
    decide +kernel
  exact ⟨hbase, request_roundtrip (ascii "http://sim:8080/live.mpd") (ascii "http://sim:8080") hbase
    0 1 (by decide) (by decide)⟩

/-! ## the answer -/

/-- What the client gets of a complete response: the final file. -/
theorem httpGet_complete {clientAlloc : Nat → Bool} (hclient : ∀ n, clientAlloc n = true)
    {mpd : Bool} {s : Conn} (h : s.Complete mpd) :
    ∃ f, s.entry = some f ∧ f.renamed = true ∧
      (f.content.length < 10 ^ 15 → httpGet clientAlloc s.sent = .ok f.content) := by
  obtain ⟨f, hf, hren, hsent⟩ := h
  refine ⟨f, hf, hren, fun hlen => ?_⟩
  obtain hfull | ⟨body, hbody, hchunked⟩ := hsent
  · rw [hfull, serveFull, httpGet_lengthHeader, hclient, (announced_eq_iff _).mpr hlen,
      List.take_length, if_neg fun h => Bool.false_ne_true h.2.symm]
  · rw [hchunked]
    exact httpGet_chunked hclient mpd hbody f.size_lt

theorem httpGet_notFound (alloc : Nat → Bool) : httpGet alloc notFound = .fail := by
  have hcode : Digits.print 10 404 = ascii "404" := by
    simp [Digits.print]
    decide
  have hstatus : httpStatus notFound = 404 := by
    rw [notFound, httpHeaders, hcode]
    decide +kernel
  rw [httpGet, hstatus, if_pos (show (404 : Int) ≠ 200 by decide)]
  split <;> rfl

/-- A connection once `conn_handler` has read its path: the manifest is sent by
`serve_full` without a look at the file system, a path that does not begin with
`/` is answered at once. -/
def Conn.accepted (path : List UInt8) (entry : Option SegFile)
    (others : Option (List (List UInt8))) : Conn :=
  if path = ascii "/live.mpd" then ⟨entry, others, .opening false, []⟩
  else if path.head? = some 47 then ⟨entry, others, .asking, []⟩
  else ⟨entry, others, .closed, notFound⟩

theorem accepted_inv {path : List UInt8} (hpath : path ≠ ascii "/live.mpd")
    (entry : Option SegFile) (others : Option (List (List UInt8))) :
    (Conn.accepted path entry others).Inv (isMpdPath path) 0 := by
  rw [Conn.accepted, if_neg hpath]
  split
  · exact ⟨rfl, rfl⟩
  · exact fun _ => .inr (.inl rfl)

theorem accepted_segmentPath (stream num : Nat) (entry : Option SegFile)
    (others : Option (List (List UInt8))) :
    Conn.accepted (segmentPath stream num) entry others = ⟨entry, others, .asking, []⟩ := by
  have hpath : segmentPath stream num ≠ ascii "/live.mpd" := by
    rw [show segmentPath stream num = 47 :: 99 :: (segmentPath stream num).drop 2 from rfl,
      show ascii "/live.mpd" = 47 :: 108 :: (ascii "/live.mpd").drop 2 from rfl]
    exact fun h => absurd (List.cons.inj (List.cons.inj h).2).1 (by decide)
  rw [Conn.accepted, if_neg hpath, segmentPath_cons, List.head?_cons, if_pos rfl]

/-- **The whole segment or nothing.**  However the muxer's steps fall between
the handler's looks at the file system, a connection that has been closed has
given the client the whole final file or an error, never a part of it, if no
tail was longer than one read returns; and as long as no file is left
unfinished, the handler does close it.  The manifest is not among the paths: it
may be replaced after it was sent. -/
theorem conn_answers (serverAlloc clientAlloc : Nat → Bool) (hserver : ∀ n, serverAlloc n = true)
    (hclient : ∀ n, clientAlloc n = true) (path : List UInt8) (hpath : path ≠ ascii "/live.mpd")
    (entry : Option SegFile) (others : Option (List (List UInt8))) (ops : List ConnOp) (s : Conn)
    (hrun : Run.exec (connStep serverAlloc path) (.accepted path entry others) ops = some s) :
    (s.pc = .closed →
      Run.Along (connStep serverAlloc path) Conn.Fits (.accepted path entry others) ops →
      httpGet clientAlloc s.sent = .fail ∨
        ∃ f, s.entry = some f ∧ f.renamed = true ∧
          (f.content.length < 10 ^ 15 → httpGet clientAlloc s.sent = .ok f.content)) ∧
    (s.Settled → ∃ n t, Run.exec (connStep serverAlloc path) s (List.replicate n .serve) = some t ∧
      t.pc = .closed ∧ t.entry = s.entry) := by
  have hinv := Run.exec_misses Conn.Fits (fun n => Conn.Inv (isMpdPath path) n)
    (fun _ _ _ _ ht hstep => conn_invariant hserver ht hstep)
    (accepted_inv hpath entry others) hrun
  refine ⟨fun hclosed hfits => ?_, handler_finishes hserver hinv⟩
  rw [Run.misses_eq_zero_iff.mpr hfits, Conn.Inv, hclosed] at hinv
  obtain hnone | hmissing | hcomplete := hinv rfl
  · left
    rw [hnone]
    rfl
  · left
    rw [hmissing]
    exact httpGet_notFound clientAlloc
  · exact .inr (httpGet_complete hclient hcomplete)

/-- A segment that appears while the connection is held, grows while it is served
and is renamed. -/
def heldRun : List ConnOp :=
  List.replicate 3 .serve ++ [.create] ++ List.replicate 4 .serve ++ [.append [1]] ++
    List.replicate 2 .serve ++ [.rename] ++ List.replicate 5 .serve

theorem conn_answers_held :
    ∃ s, Run.exec (connStep (fun _ => true) (segmentPath 0 7))
        (.accepted (segmentPath 0 7) none none) heldRun = some s ∧ s.pc = .closed ∧ s.finalThere = true ∧
      (httpGet (fun _ => true) s.sent = .fail ∨
        ∃ f, s.entry = some f ∧ f.renamed = true ∧
          (f.content.length < 10 ^ 15 → httpGet (fun _ => true) s.sent = .ok f.content)) := by
  have hrun : ∃ s, Run.exec (connStep (fun _ => true) (segmentPath 0 7))
      (.accepted (segmentPath 0 7) none none) heldRun = some s ∧ s.pc = .closed ∧ s.finalThere = true := ⟨_, rfl, rfl, rfl⟩
  obtain ⟨s, hs, hclosed, hfinal⟩ := hrun
  exact ⟨s, hs, hclosed, hfinal, (conn_answers (fun _ => true) (fun _ => true) (fun _ => rfl)
    (fun _ => rfl) (segmentPath 0 7) (by decide) none none heldRun s hs).1 hclosed (by decide)⟩

/-! ## segments that are there -/

/-- The newest segment of a longer listing. -/
theorem newestSeg_append {names : List (List UInt8)} {name : List UInt8} {stream num : Int}
    (h : chunkNumber stream name = some num) :
    newestSeg (some (names ++ [name])) stream = max (newestSeg (some names) stream) num := by
  simp only [newestSeg, List.foldl_append, List.foldl_cons, List.foldl_nil, h]
  split <;> omega

/-- The listings of the other files leave room for the 30 segments the handler
allows a request to be ahead. -/
def RoomAhead (stream : Int) (others : Option (List (List UInt8))) : Prop :=
  newestSeg others stream ≤ intMax - 30

theorem possible_of_there {stream num : Nat} (hstream : stream ≤ intMax) (hnum : num ≤ intMax - 30)
    {s : Conn} (hroom : RoomAhead stream s.others) (hthere : s.finalThere = true) :
    impossible (segmentPath stream num) (s.dir ((segmentPath stream num).drop 1)) = false := by
  have hint := intMax_eq
  obtain ⟨f, hf, hren⟩ := finalThere_iff.mp hthere
  rw [impossible, scanSegment_segmentPath hstream (by omega)]
  refine decide_eq_false ?_
  cases hothers : s.others with
  | none =>
      rw [Conn.dir, hothers]
      exact fun h => absurd h.1 (show ¬ (0 : Int) ≤ -1 by decide)
  | some names =>
      have hslash : 47 ∉ (segmentPath stream num).drop 1 := by
        have hfront : (47 : UInt8) ∉ ascii "chunk-stream" := by decide
        have hback : (47 : UInt8) ∉ ascii ".m4s" := by decide
        have hdigits : ∀ ds : List UInt8, (∀ b ∈ ds, isDecimal b = true) → 47 ∉ ds :=
          fun ds hds h => absurd (hds 47 h) (by decide)
        have hsplit : (segmentPath stream num).drop 1 = ascii "chunk-stream" ++
            (Digits.print 10 stream ++ 45 :: (padded num ++ ascii ".m4s")) := rfl
        rw [hsplit]
        simp only [List.mem_append, List.mem_cons, not_or]
        exact ⟨hfront, hdigits _ fun b hb => isDecimal_of_mem_print hb, by decide,
          hdigits _ fun b hb => isDecimal_of_mem_padded hb, hback⟩
      have hnewest := @newestSeg_append names _ _ _
        (@chunkNumber_segmentPath stream num (by omega))
      rw [RoomAhead, hothers] at hroom
      rw [Conn.dir, hothers, Option.map_some, hf, entryNames, if_neg hslash, if_pos hren, hnewest,
        toInt_of_range (by omega) (by omega)]
      omega

/-- Only the muxer changes the other files. -/
theorem others_of_step {alloc : Nat → Bool} {path : List UInt8} {s t : Conn} {op : ConnOp}
    (h : connStep alloc path s op = some t) :
    t.others = s.others ∨ ∃ names, op = .list names ∧ t.others = names := by
  by_cases hop : op = .serve
  · subst hop
    exact .inl (others_handler h)
  · cases op with
    | serve => exact absurd rfl hop
    | list names => exact .inr ⟨names, rfl, by rw [← Option.some.inj h]⟩
    | create =>
        simp only [connStep] at h
        split at h
        · exact .inl (by rw [← Option.some.inj h])
        · cases h
    | append bytes | rename =>
        obtain ⟨g, -, rfl⟩ := Option.map_eq_some_iff.mp h
        exact .inl rfl

/-- **A segment that is there is served.**  If the segment's file was in the
directory when the request came, under either name, then the connection is
closed with the whole final segment sent, however the muxer goes on, if no tail
was longer than one read returns: not even a rename between the two looks at the
file system makes the handler refuse it. -/
theorem present_segment_served (serverAlloc clientAlloc : Nat → Bool)
    (hserver : ∀ n, serverAlloc n = true) (hclient : ∀ n, clientAlloc n = true) (stream num : Nat)
    (hstream : stream ≤ intMax) (hnum : num ≤ intMax - 30) (file : SegFile)
    (others : Option (List (List UInt8))) (hothers : RoomAhead stream others) (ops : List ConnOp)
    (hops : ∀ names, .list names ∈ ops → RoomAhead stream names) (s : Conn)
    (hrun : Run.exec (connStep serverAlloc (segmentPath stream num))
      (.accepted (segmentPath stream num) (some file) others) ops = some s)
    (hfits : Run.Along (connStep serverAlloc (segmentPath stream num)) Conn.Fits
      (.accepted (segmentPath stream num) (some file) others) ops) (hclosed : s.pc = .closed) :
    ∃ f, s.entry = some f ∧ f.renamed = true ∧
      (f.content.length < 10 ^ 15 → httpGet clientAlloc s.sent = .ok f.content) := by
  rw [accepted_segmentPath] at hrun hfits
  have hlists : ∀ op ∈ ops, ∀ names, op = .list names → RoomAhead stream names := by
    rintro op hop names rfl
    exact hops names hop
  have hkept : s.Inv (isMpdPath (segmentPath stream num)) 0 ∧
      s.Present (isMpdPath (segmentPath stream num)) ∧ RoomAhead stream s.others := by
    refine Run.exec_invariant
      (fun t : Conn => t.Inv (isMpdPath (segmentPath stream num)) 0 ∧
        t.Present (isMpdPath (segmentPath stream num)) ∧ RoomAhead stream t.others)
      ?_ (show Conn.Inv _ 0 ⟨some file, others, .asking, []⟩ ∧
        Conn.Present _ ⟨some file, others, .asking, []⟩ ∧ _ from ⟨⟨rfl, rfl⟩, rfl, hothers⟩)
      (hfits.and_mem hlists) hrun
    rintro t op u ⟨hinv, hpresent, hroom⟩ ⟨hfit, hop⟩ hstep
    refine ⟨by simpa only [if_pos hfit] using conn_invariant hserver hinv hstep, ?_, ?_⟩
    · by_cases hserve : op = .serve
      · subst hserve
        refine present_handler hserver hinv hpresent (fun hpc => ?_) hstep
        rw [Conn.Present, hpc] at hpresent
        exact possible_of_there hstream hnum hroom hpresent
      · exact (muxerStep_of_step hserve hstep).present hpresent
    · obtain heq | ⟨names, hlist, heq⟩ := others_of_step hstep
      · rw [heq]
        exact hroom
      · rw [heq]
        exact hop names hlist
  have hdone := hkept.2.1
  rw [Conn.Present, hclosed] at hdone
  exact httpGet_complete hclient hdone

/-- A segment that is renamed between the two looks at the file system, in a
directory whose newest other segment is the one before it. -/
def missedRun : List ConnOp :=
  [.serve, .append [2], .rename] ++ List.replicate 7 .serve

theorem present_segment_served_missed :
    ∃ s, Run.exec (connStep (fun _ => true) (segmentPath 0 7))
        (.accepted (segmentPath 0 7) (some ⟨[1], false, by decide⟩)
          (some [ascii "chunk-stream0-00006.m4s"]))
        missedRun = some s ∧ s.pc = .closed ∧
      ∃ f, s.entry = some f ∧ f.renamed = true ∧
        (f.content.length < 10 ^ 15 → httpGet (fun _ => true) s.sent = .ok f.content) := by
  have hrun : ∃ s, Run.exec (connStep (fun _ => true) (segmentPath 0 7))
      (.accepted (segmentPath 0 7) (some ⟨[1], false, by decide⟩)
        (some [ascii "chunk-stream0-00006.m4s"]))
      missedRun = some s ∧ s.pc = .closed := ⟨_, rfl, rfl⟩
  obtain ⟨s, hs, hclosed⟩ := hrun
  refine ⟨s, hs, hclosed, ?_⟩
  exact present_segment_served (fun _ => true) (fun _ => true) (fun _ => rfl) (fun _ => rfl) 0 7
    (by decide) (by decide) ⟨[1], false, by decide⟩ (some [ascii "chunk-stream0-00006.m4s"])
    (show newestSeg _ _ ≤ _ by decide +kernel) missedRun (by simp [missedRun]) s hs (by decide)
    hclosed

end Vmc
