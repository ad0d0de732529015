import Vmc.Client.HttpGet
import Vmc.Sim.DashServer

/-!
# Vmc.Client.SegmentFetch

A segment served while it is written, as the client receives it.

`decodeChunks_stream` is the round trip of the chunked framing, for chunks of
any content: the decoder never looks inside the data, so nothing in it can be
taken for framing.  With the server's invariant it gives
`progressive_lossless`: whenever the muxer appends or renames, a response that
is ended decodes to the whole file, and after the rename it does end.
-/

namespace Vmc

open Bytes

/-! ## the chunk decoder on a stream of chunks -/

/-- Doubling from a power of two reaches any need up to `2^63`. -/
theorem growCap_pow {need : Nat} (hneed : need ≤ 2 ^ 63) :
    ∀ (fuel j : Nat), j ≤ 63 → 63 < fuel + j → ∃ m ≤ 63, growCap fuel (2 ^ j) need = some (2 ^ m) := by
  intro fuel
  induction fuel with
  | zero =>
      intro j hj hlt
      omega
  | succ fuel ih =>
      intro j hj hlt
      rw [growCap]
      by_cases hmore : 2 ^ j < need
      · have hj' : j < 63 := by
          by_contra hge
          obtain rfl : j = 63 := by omega
          omega
        have hpow : 2 ^ j * 2 % 2 ^ 64 = 2 ^ (j + 1) := by
          rw [← Nat.pow_succ]
          exact Nat.mod_eq_of_lt (Nat.pow_lt_pow_right (by omega) (by omega))
        rw [if_pos hmore, hpow]
        exact ih (j + 1) (by omega) (by omega)
      · rw [if_neg hmore]
        exact ⟨j, hj, rfl⟩

/-- Capacities the decoder uses: none yet, or a power of two. -/
def CapOk (cap : Nat) : Prop := cap = 0 ∨ ∃ k ≤ 63, cap = 2 ^ k

/-- The growth loop ends for a need up to `2^63`. -/
theorem growCap_ok {need cap : Nat} (hcap : CapOk cap) (hmore : cap < need) (hneed : need ≤ 2 ^ 63) :
    ∃ m ≤ 63, growCap 65 (if cap ≠ 0 then cap * 2 % 2 ^ 64 else 262144) need = some (2 ^ m) := by
  obtain rfl | ⟨k, hk, rfl⟩ := hcap
  · exact growCap_pow hneed 65 18 (by omega) (by omega)
  · have hk' : k < 63 := by
      by_contra hge
      obtain rfl : k = 63 := by omega
      omega
    have hpow : 2 ^ k * 2 % 2 ^ 64 = 2 ^ (k + 1) := by
      rw [← Nat.pow_succ]
      exact Nat.mod_eq_of_lt (Nat.pow_lt_pow_right (by omega) (by omega))
    rw [if_pos (by positivity), hpow]
    exact growCap_pow hneed 65 (k + 1) (by omega) (by omega)

theorem ensureCap_ok {alloc : Nat → Bool} (halloc : ∀ n, alloc n = true) (len sz : Nat) {cap : Nat}
    (hcap : CapOk cap) (hlen : len + sz ≤ 2 ^ 63) :
    ∃ cap', ensureCap alloc len sz cap = .ok cap' ∧ CapOk cap' := by
  unfold ensureCap
  by_cases hmore : len + sz > cap
  · obtain ⟨m, hm, heq⟩ := growCap_ok hcap hmore hlen
    refine ⟨2 ^ m, ?_, .inr ⟨m, hm, rfl⟩⟩
    simp only [if_pos hmore, heq, halloc, if_true]
  · rw [if_neg hmore]
    exact ⟨cap, rfl, hcap⟩

/-- Digits in front of something else are read as far as they go. -/
theorem takeWhile_isHex {ds tail : List UInt8} (hhex : ∀ b ∈ ds, Digits.isHex b = true)
    (hshort : ds.length < 31) (hstop : ∀ b ∈ tail.head?, Digits.isHex b = false) :
    ((ds ++ tail).take 31).takeWhile Digits.isHex = ds := by
  rw [List.take_append, List.take_of_length_le (by omega)]
  refine takeWhile_append_of_stop hhex ?_
  rwa [List.head?_take, if_neg (by omega)]

/-- One turn of the decoder on the size line `ds` of a chunk, however much of
the line and of the data behind it is there. -/
theorem decodeChunks_line {alloc : Nat → Bool} (halloc : ∀ n, alloc n = true)
    {ds tail : List UInt8} (hne : ds ≠ []) (hhex : ∀ b ∈ ds, Digits.isHex b = true)
    (hshort : ds.length < 31) (hstop : ∀ b ∈ tail.head?, Digits.isHex b = false)
    (hpos : 0 < Digits.value 16 ds) (buf : List UInt8) {cap : Nat} (hcap : CapOk cap)
    (hsum : buf.length + Digits.value 16 ds < 2 ^ 63) (fuel : Nat) :
    let data := (tail.dropWhile (· ≠ 10)).drop 1
    let sz := Digits.value 16 ds
    ∃ cap', CapOk cap' ∧ decodeChunks alloc (fuel + 1) (ds ++ tail) buf cap =
      if sz > data.length then .fail
      else decodeChunks alloc fuel (skipTrailing (data.drop sz)) (buf ++ data.take sz) cap' := by
  intro data sz
  obtain ⟨cap', hcap', hok⟩ := ensureCap_ok halloc buf.length sz hcap (by omega)
  refine ⟨cap', hok, ?_⟩
  have hrest : (ds ++ tail).dropWhile (fun b => b = 13 ∨ b = 10) = ds ++ tail := by
    obtain ⟨d, ds', rfl⟩ := List.exists_cons_of_ne_nil hne
    have hd : ¬ (d = 13 ∨ d = 10) := by
      have hx := hhex d (by simp)
      rintro (rfl | rfl) <;> exact absurd hx (by decide)
    rw [List.cons_append, List.dropWhile_cons_of_neg (by simpa using hd)]
  have hsz : strtol16 ds = sz := by
    rw [strtol16]
    omega
  rw [decodeChunks]
  simp only [hrest, takeWhile_isHex hhex hshort hstop, List.drop_left, hsz, hcap']
  rw [if_neg (by simp [hne]), if_neg (by omega)]

/-- What the size line of a chunk consists of. -/
theorem sizeLine_facts {n : Nat} (hpos : 0 < n) (hlt : n < 2 ^ 63) :
    Digits.print 16 n ≠ [] ∧ (∀ b ∈ Digits.print 16 n, Digits.isHex b = true) ∧
      (Digits.print 16 n).length < 31 := by
  have hlen := Digits.length_print_le (b := 16) (n := n) (k := 16) (by omega) (by omega) (by omega)
  exact ⟨Digits.print_ne_nil 16 n,
    fun b hb => Digits.isHex_of_mem_print (by omega) (by omega) hb, by omega⟩

/-- The end of the size line is no digit. -/
theorem sizeLine_stop (data : List UInt8) :
    ∀ b ∈ (13 :: data).head?, Digits.isHex b = false := by
  intro b hb
  obtain rfl := Option.mem_some_iff.mp hb
  decide

/-- The data begin behind the size line. -/
theorem sizeLine_data (data : List UInt8) :
    ((13 :: 10 :: data).dropWhile (· ≠ 10)).drop 1 = data := by
  rw [List.dropWhile_cons_of_pos (by decide), List.dropWhile_cons_of_neg (by decide)]
  rfl

/-- A chunk as the decoder meets it: the size line, and the data behind it. -/
theorem chunkBytes_append (c tail : List UInt8) :
    chunkBytes c ++ tail = Digits.print 16 c.length ++ 13 :: 10 :: (c ++ 13 :: 10 :: tail) := by
  simp only [chunkBytes, List.append_assoc]
  rfl

/-- The decoder takes a whole chunk. -/
theorem decodeChunks_chunk {alloc : Nat → Bool} (halloc : ∀ n, alloc n = true)
    {c : List UInt8} (hc : c ≠ []) (buf : List UInt8) {cap : Nat} (hcap : CapOk cap)
    (hsum : buf.length + c.length < 2 ^ 63) (fuel : Nat) (rest : List UInt8) :
    ∃ cap', CapOk cap' ∧
      decodeChunks alloc (fuel + 1) (Digits.print 16 c.length ++ 13 :: 10 :: (c ++ rest)) buf cap =
        decodeChunks alloc fuel (skipTrailing rest) (buf ++ c) cap' := by
  have hpos : 0 < c.length := List.length_pos_iff.mpr hc
  have hvalue : Digits.value 16 (Digits.print 16 c.length) = c.length :=
    Digits.value_print (by omega) (by omega) _
  obtain ⟨hne, hhex, hshort⟩ := sizeLine_facts hpos (by omega)
  obtain ⟨cap', hok, hturn⟩ := decodeChunks_line halloc hne hhex hshort
    (sizeLine_stop (10 :: (c ++ rest))) (by omega) buf hcap (by omega) fuel
  refine ⟨cap', hok, hturn.trans ?_⟩
  rw [sizeLine_data, hvalue, if_neg (by simp), List.drop_left, List.take_left]

/-- **The framing is undone**: a stream of non-empty chunks and the last chunk
decodes to the data of the chunks. -/
theorem decodeChunks_stream {alloc : Nat → Bool} (halloc : ∀ n, alloc n = true)
    (chunks : List (List UInt8)) :
    ∀ (fuel : Nat) (buf : List UInt8) (cap : Nat), (∀ c ∈ chunks, c ≠ []) → chunks.length < fuel →
      CapOk cap → buf.length + chunks.flatten.length < 2 ^ 63 →
      decodeChunks alloc fuel (chunks.flatMap chunkBytes ++ lastChunk) buf cap =
        .ok (buf ++ chunks.flatten) := by
  induction chunks with
  | nil =>
      intro fuel buf cap _ hfuel _ _
      obtain ⟨fuel, rfl⟩ : ∃ k, fuel = k + 1 := ⟨fuel - 1, by omega⟩
      have hlast : ([] : List (List UInt8)).flatMap chunkBytes ++ lastChunk =
          [48, 13, 10, 13, 10] := rfl
      rw [hlast, List.flatten_nil, List.append_nil]
      rfl
  | cons c cs ih =>
      intro fuel buf cap hne hfuel hcap hlen
      obtain ⟨fuel, rfl⟩ : ∃ k, fuel = k + 1 := ⟨fuel - 1, by omega⟩
      rw [List.flatten_cons, List.length_append] at hlen
      obtain ⟨cap', hok, hturn⟩ := decodeChunks_chunk halloc (hne c (by simp)) buf hcap (by omega) fuel
        (13 :: 10 :: (cs.flatMap chunkBytes ++ lastChunk))
      have htrail : ∀ tail : List UInt8, skipTrailing (13 :: 10 :: tail) = tail := fun _ => rfl
      rw [List.flatMap_cons, List.append_assoc, chunkBytes_append, hturn, htrail,
        ih fuel (buf ++ c) cap' (fun d hd => hne d (List.mem_cons_of_mem c hd))
          (by rw [List.length_cons] at hfuel; omega) hok (by rw [List.length_append]; omega)]
      rw [List.flatten_cons, List.append_assoc]

/-! ## the server's header block -/

/-- The header block of a chunked response, behind the status. -/
def chunkedHeaderRest (mpd : Bool) : List UInt8 :=
  ascii "OK\r\nContent-Type: " ++ ascii (contentType mpd) ++
    ascii "\r\nTransfer-Encoding: chunked\r\nCache-Control: no-cache\r\nConnection: close\r\n" ++
    ascii "Access-Control-Allow-Origin: *\r\n\r\n"

theorem httpHeaders_chunked (mpd : Bool) :
    httpHeaders 200 (contentType mpd) (-1) true =
      ascii "HTTP/1.1 200 " ++ chunkedHeaderRest mpd := by
  have hcode : Digits.print 10 200 = ascii "200" := by
    simp [Digits.print]
    decide
  cases mpd <;> rw [httpHeaders, hcode] <;> decide +kernel

/-- What the client looks for in the block, for both content types. -/
theorem chunkedHeader_facts (mpd : Bool) :
    let hdr := ascii "HTTP/1.1 200 " ++ chunkedHeaderRest mpd
    12 ≤ hdr.length ∧ findHeaderEnd hdr = some hdr.length ∧
      (∀ i ∈ List.range (hdr.length - 18),
        startsNoCase (hdr.drop i) (ascii "Content-Length:") = false) ∧
      (∀ i ∈ List.range (hdr.length - 18),
        startsNoCase (hdr.drop i) (ascii "Transfer-Encoding:") = true →
          7 ≤ (headerValue hdr i 18 hdr.length).length) ∧
      scanHeaders hdr hdr.length = (true, -1) := by
  revert mpd
  decide +kernel

/-- The client reads the block as it was meant: status 200, and a chunked body
right behind it. -/
theorem parse_chunkedHeader (mpd : Bool) (body : List UInt8) :
    let hdr := httpHeaders 200 (contentType mpd) (-1) true
    12 ≤ hdr.length ∧ httpStatus (hdr ++ body) = 200 ∧
      findHeaderEnd (hdr ++ body) = some hdr.length ∧
      scanHeaders (hdr ++ body) hdr.length = (true, -1) := by
  obtain ⟨hlen, hend, hcl, hte, hscan⟩ := chunkedHeader_facts mpd
  simp only [httpHeaders_chunked]
  refine ⟨hlen, ?_, (findHeaderEnd_append hend body).2, (scanHeaders_append hcl hte body).trans hscan⟩
  rw [List.append_assoc]
  exact httpStatus_ok _

/-- Behind the block the chunk decoder takes over. -/
theorem httpGet_chunkedHeader (alloc : Nat → Bool) (mpd : Bool) (body : List UInt8) :
    let hdr := httpHeaders 200 (contentType mpd) (-1) true
    httpGet alloc (hdr ++ body) = decodeChunks alloc ((hdr ++ body).length + 1) body [] 0 := by
  obtain ⟨hmin, hstatus, hend, hscan⟩ := parse_chunkedHeader mpd body
  simp only [httpGet, hstatus, hend, hscan, List.drop_left]
  rw [if_neg (by rw [List.length_append]; omega), if_neg (by simp), if_pos trivial]

/-- A chunked response of the server is taken for its body. -/
theorem httpGet_chunked {alloc : Nat → Bool} (halloc : ∀ n, alloc n = true) (mpd : Bool)
    {sent body : List UInt8} (hsent : ChunkedAs (httpHeaders 200 (contentType mpd) (-1) true) sent body)
    (hlen : body.length < 2 ^ 63) : httpGet alloc (sent ++ lastChunk) = .ok body := by
  obtain ⟨chunks, hne, rfl, rfl⟩ := hsent
  have hcount : chunks.length ≤ (chunks.flatMap chunkBytes).length := by
    clear hne hlen
    induction chunks with
    | nil => simp
    | cons c cs ih =>
        have hpos : 0 < (chunkBytes c).length :=
          List.length_pos_iff.mpr (by simp [chunkBytes, Digits.print_ne_nil])
        rw [List.flatMap_cons, List.length_append, List.length_cons]
        omega
  rw [List.append_assoc, httpGet_chunkedHeader,
    decodeChunks_stream halloc chunks _ [] 0 hne _ (.inl rfl) (by simpa using hlen),
    List.nil_append]
  simp only [List.length_append]
  omega

/-! ## progressive delivery -/

/-- The promise: a response that has been ended is one the client takes for
exactly the final file. -/
def ProgressiveLossless : Prop :=
  ∀ (serverAlloc clientAlloc : Nat → Bool), (∀ n, serverAlloc n = true) →
    (∀ n, clientAlloc n = true) → ∀ (mpd : Bool) (file : SegFile) (ops : List ServeOp) (s : Serving),
    Run.exec (progressiveStep serverAlloc (contentType mpd)) ⟨file, .start, []⟩ ops = some s →
    s.pc = .done → httpGet clientAlloc s.sent = .ok s.file.content

/-- What the client makes of a response that has been ended: the whole file if
no read of the tail was cut. -/
theorem httpGet_done {serverAlloc clientAlloc : Nat → Bool} (hserver : ∀ n, serverAlloc n = true)
    (hclient : ∀ n, clientAlloc n = true) {mpd : Bool} {file : SegFile} {ops : List ServeOp}
    {s : Serving}
    (hrun : Run.exec (progressiveStep serverAlloc (contentType mpd)) ⟨file, .start, []⟩ ops = some s)
    (hdone : s.pc = .done) :
    s.file.renamed = true ∧ (httpGet clientAlloc s.sent = .ok s.file.content ↔
      Run.Along (progressiveStep serverAlloc (contentType mpd)) Serving.Fits ⟨file, .start, []⟩
        ops) := by
  have hinv := Run.exec_misses Serving.Fits
    (fun n => Serving.Inv (httpHeaders 200 (contentType mpd) (-1) true) n)
    (fun _ _ _ _ ht hstep => serve_invariant hserver ht hstep)
    (show Serving.Inv _ 0 ⟨file, .start, []⟩ from ⟨rfl, rfl⟩) hrun
  simp only [Nat.zero_add, Serving.Inv, hdone, Run.misses_eq_zero_iff] at hinv
  obtain ⟨hren, off, body, hbody, hsent, hwhole⟩ := hinv
  have hlen : (s.file.content.take off).length < 2 ^ 63 :=
    lt_of_le_of_lt (List.length_take_le' _ _) s.file.size_lt
  rw [hsent, httpGet_chunked hclient mpd hbody.chunked hlen, ← hwhole]
  refine ⟨hren, fun h => ?_, fun h => by rw [h, List.take_length]⟩
  have hle := hbody.le
  have hlength := congrArg List.length (HttpResult.ok.inj h)
  rw [List.length_take] at hlength
  omega

/-- A segment that is written and renamed between the last poll and the look
for its `.tmp` name. -/
def lateTailRun (tail : List UInt8) : List ServeOp :=
  [.serve, .serve, .serve, .append tail, .rename, .serve, .serve] ++ [.serve, .serve]

/-- One read is asked for all of it. -/
theorem exec_lateTailRun {tail : List UInt8} (hpos : 0 < tail.length)
    (hlen : tail.length < 2 ^ 63) :
    ∃ s, Run.exec (progressiveStep (fun _ => true) (contentType false))
        ⟨⟨[], false, by decide⟩, .start, []⟩ (lateTailRun tail) = some s ∧ s.pc = .done ∧
      (Run.Along (progressiveStep (fun _ => true) (contentType false)) Serving.Fits
          ⟨⟨[], false, by decide⟩, .start, []⟩ (lateTailRun tail) → tail.length ≤ maxRwCount) := by
  have htail : Run.exec (progressiveStep (fun _ => true) (contentType false))
      ⟨⟨[], false, by decide⟩, .start, []⟩
      [.serve, .serve, .serve, .append tail, .rename, .serve, .serve] =
        some ⟨⟨tail, true, hlen⟩, .tailRead 0 tail.length,
          httpHeaders 200 (contentType false) (-1) true⟩ := by
    iterate 3 refine (Run.exec_cons_eq_some _).mpr ⟨_, rfl, ?_⟩
    refine (Run.exec_cons_eq_some _).mpr ⟨_, dif_pos ⟨rfl, hlen⟩, ?_⟩
    iterate 2 refine (Run.exec_cons_eq_some _).mpr ⟨_, rfl, ?_⟩
    exact (Run.exec_cons_eq_some _).mpr ⟨_, if_pos ⟨rfl, hpos⟩, rfl⟩
  refine ⟨_, Run.exec_append_of _ htail rfl, rfl, fun hal => ?_⟩
  exact ((Run.along_append.mp hal).2 _ htail).1 rfl

/-- With one byte more than Linux reads at a time the client gets a segment
without its last byte, and takes it for whole. -/
theorem progressiveLossless_fails : ¬ ProgressiveLossless := by
  intro h
  have hlength : (List.replicate (maxRwCount + 1) (0 : UInt8)).length = maxRwCount + 1 :=
    List.length_replicate
  obtain ⟨s, hrun, hdone, hfits⟩ := @exec_lateTailRun (List.replicate (maxRwCount + 1) 0)
    (by rw [hlength]; omega) (by rw [hlength, maxRwCount]; omega)
  have hok := h _ (fun _ => true) (fun _ => rfl) (fun _ => rfl) _ _ _ _ hrun hdone
  have hle := hfits ((httpGet_done (fun _ => rfl) (fun _ => rfl) hrun hdone).2.mp hok)
  rw [hlength] at hle
  omega

/-- **Progressive delivery is lossless** as long as what is left for the end can
be read at once.  However the muxer's appends and its rename fall between the
server's steps: a response that has been ended is one the client takes for
exactly the final file if and only if no read of the tail was asked for more
than Linux transfers in one call, and once the file is renamed the server does
end it. -/
theorem progressive_lossless (serverAlloc clientAlloc : Nat → Bool)
    (hserver : ∀ n, serverAlloc n = true) (hclient : ∀ n, clientAlloc n = true) (mpd : Bool)
    (file : SegFile) (ops : List ServeOp) (s : Serving)
    (hrun : Run.exec (progressiveStep serverAlloc (contentType mpd)) ⟨file, .start, []⟩ ops = some s) :
    (s.pc = .done → s.file.renamed = true ∧
      (httpGet clientAlloc s.sent = .ok s.file.content ↔
        Run.Along (progressiveStep serverAlloc (contentType mpd)) Serving.Fits ⟨file, .start, []⟩
          ops)) ∧
    (s.file.renamed = true → ∃ n t,
      Run.exec (progressiveStep serverAlloc (contentType mpd)) s (List.replicate n .serve) =
          some t ∧ t.pc = .done ∧
        (httpGet clientAlloc t.sent = .ok s.file.content ↔
          Run.Along (progressiveStep serverAlloc (contentType mpd)) Serving.Fits ⟨file, .start, []⟩
            (ops ++ List.replicate n .serve))) := by
  refine ⟨httpGet_done hserver hclient hrun, fun hren => ?_⟩
  have hinv := Run.exec_misses Serving.Fits
    (fun n => Serving.Inv (httpHeaders 200 (contentType mpd) (-1) true) n)
    (fun _ _ _ _ ht hstep => serve_invariant hserver ht hstep)
    (show Serving.Inv _ 0 ⟨file, .start, []⟩ from ⟨rfl, rfl⟩) hrun
  obtain ⟨n, t, ht, hpc, hfile⟩ := serve_finishes hserver hinv hren
  refine ⟨n, t, ht, hpc, ?_⟩
  rw [← hfile]
  exact (httpGet_done hserver hclient (Run.exec_append_of _ hrun ht) hpc).2

/-- A segment of two bytes that grows by one before it is read and by one more
between the last read and the rename. -/
def racedRun : List ServeOp :=
  [.serve, .serve, .serve, .append [3], .serve, .append [4], .rename, .serve, .serve, .serve, .serve]

theorem progressive_lossless_raced :
    ∃ s, Run.exec (progressiveStep (fun _ => true) (contentType false))
        ⟨⟨[1, 2], false, by decide⟩, .start, []⟩ racedRun = some s ∧
      httpGet (fun _ => true) s.sent = .ok [1, 2, 3, 4] := by
  obtain ⟨s, hs, hdone, hcontent⟩ : ∃ s,
      Run.exec (progressiveStep (fun _ => true) (contentType false))
          ⟨⟨[1, 2], false, by decide⟩, .start, []⟩ racedRun = some s ∧
        s.pc = .done ∧ s.file.content = [1, 2, 3, 4] := ⟨_, rfl, rfl, rfl⟩
  have h := ((progressive_lossless (fun _ => true) (fun _ => true) (fun _ => rfl) (fun _ => rfl)
    false _ racedRun s hs).1 hdone).2.mpr (by decide)
  rw [hcontent] at h
  exact ⟨s, hs, h⟩

end Vmc
