import Vmc.Lib.Bytes
import Vmc.Lib.Digits
import Vmc.Lib.Run

/-!
# Vmc.Sim.DashServer

Serving a segment that is still being written (`serve_progressive` of
`tools/vmc-dash-sim/main.c`).

The muxer appends to a `.tmp` file and renames it when the segment is complete;
the server polls the file it has opened, sends what is new as one chunk, and
ends the response when the `.tmp` name is gone, after sending the rest from the
final file.  Muxer and server interleave at the granularity of `ServeOp`:
between any two calls on the file system the file may grow or be renamed.

Socket writes succeed and `g_run` stays set.  Reading a regular file returns
what is asked for and there, but never more than Linux transfers in one call;
the one read of the tail is not repeated, so a longer tail is cut
(`ServePc.Fits`).  `serve_invariant` is what both keep: the server has sent, as
chunks, the first `off` bytes of the file.
-/

namespace Vmc

open Bytes

/-! ## the response -/

/-- `http_headers`; the length header is formatted into 32 bytes. -/
def httpHeaders (code : Nat) (ct : String) (len : Int) (chunked : Bool) : List UInt8 :=
  let lenhdr :=
    if chunked then (ascii "Transfer-Encoding: chunked\r\n").take 31
    else if 0 ≤ len then
      (ascii "Content-Length: " ++ Digits.print 10 len.toNat ++ ascii "\r\n").take 31
    else []
  ascii "HTTP/1.1 " ++ Digits.print 10 code ++ ascii " OK\r\n" ++
    ascii "Content-Type: " ++ ascii ct ++ ascii "\r\n" ++
    lenhdr ++
    ascii "Cache-Control: no-cache\r\n" ++
    ascii "Connection: close\r\n" ++
    ascii "Access-Control-Allow-Origin: *\r\n" ++
    ascii "\r\n"

/-- One chunk on the wire: `%zx` of its size, CRLF, the data, CRLF. -/
def chunkBytes (c : List UInt8) : List UInt8 :=
  Digits.print 16 c.length ++ (ascii "\r\n" ++ (c ++ ascii "\r\n"))

/-- The chunk that ends the body. -/
def lastChunk : List UInt8 := ascii "0\r\n\r\n"

/-- The content type `conn_handler` gives a file. -/
def contentType (mpd : Bool) : String :=
  if mpd then "application/dash+xml" else "video/iso.segment"

/-! ## muxer and server -/

/-- The segment on disk: one file, under its `.tmp` name until it is renamed.
Its size is an `off_t`. -/
structure SegFile where
  content : List UInt8
  renamed : Bool
  size_lt : content.length < 2 ^ 63

/-- Where `serve_progressive` is; `off` counts the bytes sent. -/
inductive ServePc where
  | start
  | opening
  | openingFinal
  | sendingFinal (size off : Nat)
  | polling (off : Nat)
  | reading (off : Nat)
  | checking (off : Nat)
  | tail (off : Nat)
  | tailRead (off count : Nat)
  | closing
  | done
deriving DecidableEq, Repr

/-- The file, the server and the bytes written to the socket. -/
structure Serving where
  file : SegFile
  pc : ServePc
  sent : List UInt8

/-- The most bytes Linux transfers in one call: `INT_MAX` down to a page. -/
def maxRwCount : Nat := 0x7ffff000

/-- `pread`: up to `count` bytes from `off`. -/
def SegFile.pread (f : SegFile) (count off : Nat) : List UInt8 :=
  (f.content.drop off).take (min count maxRwCount)

/-- Send `data` as a chunk unless it is empty. -/
def sendChunk (sent data : List UInt8) : List UInt8 :=
  if data = [] then sent else sent ++ chunkBytes data

/-- The read size of the server's buffers. -/
def serveCap : Nat := 65536

/-- One step of `serve_progressive`, each with at most one call on the file
system.  `alloc` says whether a buffer for the tail can be had. -/
def serveStep (alloc : Nat → Bool) (ct : String) (s : Serving) : Option Serving :=
  match s.pc with
  | .start => some { s with pc := .opening, sent := s.sent ++ httpHeaders 200 ct (-1) true }
  | .opening =>
      if s.file.renamed then some { s with pc := .openingFinal } else some { s with pc := .polling 0 }
  | .openingFinal =>
      -- the final file is there once the `.tmp` name is gone
      if s.file.renamed ∧ s.file.content.length > 0 then
        some { s with pc := .sendingFinal s.file.content.length 0 }
      else some { s with pc := .closing }
  | .sendingFinal size off =>
      if off < size then
        let data := s.file.pread serveCap off
        if data = [] then some { s with pc := .closing }
        else some { s with
          pc := .sendingFinal size (off + data.length)
          sent := sendChunk s.sent data }
      else some { s with pc := .closing }
  | .polling off =>
      if s.file.content.length > off then some { s with pc := .reading off }
      else some { s with pc := .checking off }
  | .reading off =>
      let data := s.file.pread serveCap off
      some { s with pc := .checking (off + data.length), sent := sendChunk s.sent data }
  | .checking off =>
      if s.file.renamed then some { s with pc := .tail off } else some { s with pc := .polling off }
  | .tail off =>
      if s.file.renamed ∧ s.file.content.length > off then
        if alloc (s.file.content.length - off) then
          some { s with pc := .tailRead off (s.file.content.length - off) }
        else some { s with pc := .closing }
      else some { s with pc := .closing }
  | .tailRead off count =>
      some { s with pc := .closing, sent := sendChunk s.sent (s.file.pread count off) }
  | .closing => some { s with pc := .done, sent := s.sent ++ lastChunk }
  | .done => none

/-- The steps of muxer and server. -/
inductive ServeOp where
  | append (bytes : List UInt8)
  | rename
  | serve
deriving DecidableEq, Repr

/-- One step; `none` if it cannot be taken. -/
def progressiveStep (alloc : Nat → Bool) (ct : String) (s : Serving) : ServeOp → Option Serving
  | .append bytes =>
      if h : s.file.renamed = false ∧ (s.file.content ++ bytes).length < 2 ^ 63 then
        some { s with file := ⟨s.file.content ++ bytes, false, h.2⟩ }
      else none
  | .rename =>
      if s.file.renamed = false then some { s with file := { s.file with renamed := true } }
      else none
  | .serve => serveStep alloc ct s

/-- What the read of the tail is asked for. -/
def ServePc.tailBytes : ServePc → Nat
  | tailRead _ count => count
  | _ => 0

/-- One call of `pread` can return all that is asked for. -/
def ServePc.Fits (pc : ServePc) : Prop := pc.tailBytes ≤ maxRwCount

instance (pc : ServePc) : Decidable pc.Fits := Nat.decLe _ _

/-- The condition on a step under which nothing is cut. -/
def Serving.Fits (s : Serving) (op : ServeOp) : Prop := op = .serve → s.pc.Fits

instance (s : Serving) (op : ServeOp) : Decidable (s.Fits op) :=
  inferInstanceAs (Decidable (op = .serve → s.pc.Fits))

/-! ## what has been sent -/

/-- `sent` is the header and, as non-empty chunks, the given body. -/
def ChunkedAs (hdr sent body : List UInt8) : Prop :=
  ∃ chunks : List (List UInt8), (∀ c ∈ chunks, c ≠ []) ∧
    sent = hdr ++ chunks.flatMap chunkBytes ∧ chunks.flatten = body

theorem chunkedAs_header (hdr : List UInt8) : ChunkedAs hdr hdr [] :=
  ⟨[], by simp, by simp, rfl⟩

theorem chunkedAs_send {hdr sent body : List UInt8} (h : ChunkedAs hdr sent body)
    (data : List UInt8) : ChunkedAs hdr (sendChunk sent data) (body ++ data) := by
  obtain ⟨chunks, hne, hsent, hbody⟩ := h
  unfold sendChunk
  by_cases hdata : data = []
  · rw [if_pos hdata, hdata, List.append_nil]
    exact ⟨chunks, hne, hsent, hbody⟩
  · rw [if_neg hdata]
    refine ⟨chunks ++ [data], ?_, ?_, ?_⟩
    · intro c hc
      obtain hc | hc := List.mem_append.mp hc
      · exact hne c hc
      · rw [List.mem_singleton.mp hc]
        exact hdata
    · rw [hsent, List.flatMap_append]
      simp
    · rw [List.flatten_append, hbody]
      simp

/-- The header and the first `off` bytes of the file have been sent. -/
structure SentUpTo (hdr : List UInt8) (f : SegFile) (sent : List UInt8) (off : Nat) : Prop where
  le : off ≤ f.content.length
  chunked : ChunkedAs hdr sent (f.content.take off)

/-- The bytes read behind those already sent carry the front of the file on. -/
theorem take_append_pread (f : SegFile) (count off : Nat) :
    f.content.take off ++ f.pread count off = f.content.take (off + (f.pread count off).length) := by
  rw [List.take_add, SegFile.pread, List.length_take, List.append_right_inj, List.take_eq_take_iff]
  simp

/-- There is something to read before the end. -/
theorem pread_ne_nil {f : SegFile} {off : Nat} (hoff : off < f.content.length) :
    f.pread serveCap off ≠ [] := by
  simp only [SegFile.pread, serveCap, maxRwCount, ne_eq, List.take_eq_nil_iff,
    List.drop_eq_nil_iff]
  omega

theorem sentUpTo_read {hdr sent : List UInt8} {f : SegFile} {off : Nat}
    (h : SentUpTo hdr f sent off) (count : Nat) :
    SentUpTo hdr f (sendChunk sent (f.pread count off)) (off + (f.pread count off).length) := by
  refine ⟨?_, ?_⟩
  · have hle := h.le
    simp only [SegFile.pread, List.length_take, List.length_drop]
    omega
  · rw [← take_append_pread]
    exact chunkedAs_send h.chunked _

/-- What holds at each point of the server's program, whatever the muxer does,
if `n` reads of the tail have been cut. -/
def Serving.Inv (hdr : List UInt8) (n : Nat) (s : Serving) : Prop :=
  match s.pc with
  | .start => n = 0 ∧ s.sent = []
  | .opening => n = 0 ∧ SentUpTo hdr s.file s.sent 0
  | .polling off | .reading off | .checking off => n = 0 ∧ SentUpTo hdr s.file s.sent off
  | .openingFinal => s.file.renamed = true ∧ n = 0 ∧ SentUpTo hdr s.file s.sent 0
  | .sendingFinal size off => s.file.renamed = true ∧ n = 0 ∧
      size = s.file.content.length ∧ SentUpTo hdr s.file s.sent off
  | .tail off => s.file.renamed = true ∧ n = 0 ∧ SentUpTo hdr s.file s.sent off
  | .tailRead off count => s.file.renamed = true ∧ n = 0 ∧
      count = s.file.content.length - off ∧ SentUpTo hdr s.file s.sent off
  | .closing => s.file.renamed = true ∧
      ∃ off, SentUpTo hdr s.file s.sent off ∧ (off = s.file.content.length ↔ n = 0)
  | .done => s.file.renamed = true ∧
      ∃ off body, SentUpTo hdr s.file body off ∧ s.sent = body ++ lastChunk ∧
        (off = s.file.content.length ↔ n = 0)

section Serving

variable {alloc : Nat → Bool} (halloc : ∀ n, alloc n = true) {ct : String}

/-- Sending the whole file from the start is done when its end is reached. -/
theorem sentUpTo_all {hdr sent : List UInt8} {f : SegFile} {off : Nat}
    (h : SentUpTo hdr f sent off) (hend : ¬ off < f.content.length) :
    SentUpTo hdr f sent f.content.length := by
  have hle := h.le
  obtain rfl : off = f.content.length := by omega
  exact h

/-- The tail is sent to its end if one read can return all of it. -/
theorem closing_of_tail {hdr sent : List UInt8} {f : SegFile} {off : Nat}
    (h : SentUpTo hdr f sent off) :
    let count := f.content.length - off
    ∃ off', SentUpTo hdr f (sendChunk sent (f.pread count off)) off' ∧
      (off' = f.content.length ↔ (if count ≤ maxRwCount then 0 else 1) = 0) := by
  intro count
  have hle := h.le
  refine ⟨off + (f.pread count off).length, sentUpTo_read h count, ?_⟩
  simp only [SegFile.pread, List.length_take, List.length_drop, ite_eq_left_iff, Nat.one_ne_zero,
    imp_false, Decidable.not_not]
  omega

include halloc in
/-- The server's steps. -/
theorem inv_serve {n : Nat} {s s' : Serving} (hs : s.Inv (httpHeaders 200 ct (-1) true) n)
    (h : serveStep alloc ct s = some s') :
    s'.Inv (httpHeaders 200 ct (-1) true) (n + if s.pc.Fits then 0 else 1) := by
  unfold serveStep at h
  unfold Serving.Inv at hs
  cases hpc : s.pc with
  | tailRead off count =>
      simp only [hpc] at h hs
      obtain ⟨hren, rfl, rfl, hsent⟩ := hs
      obtain rfl := Option.some.inj h
      rw [Nat.zero_add]
      exact ⟨hren, closing_of_tail hsent⟩
  | start =>
      simp only [hpc] at h hs
      obtain ⟨rfl, hs⟩ := hs
      obtain rfl := Option.some.inj h
      refine ⟨rfl, Nat.zero_le _, ?_⟩
      simp only [hs, List.nil_append, List.take_zero]
      exact chunkedAs_header _
  | opening =>
      simp only [hpc] at h hs
      obtain ⟨rfl, hs⟩ := hs
      by_cases hren : s.file.renamed = true
      · rw [if_pos hren] at h
        obtain rfl := Option.some.inj h
        exact ⟨hren, rfl, hs⟩
      · rw [if_neg hren] at h
        obtain rfl := Option.some.inj h
        exact ⟨rfl, hs⟩
  | openingFinal =>
      simp only [hpc] at h hs
      obtain ⟨hren, rfl, hs⟩ := hs
      by_cases hsize : s.file.content.length > 0
      · rw [if_pos ⟨hren, hsize⟩] at h
        obtain rfl := Option.some.inj h
        exact ⟨hren, rfl, rfl, hs⟩
      · rw [if_neg fun hc => hsize hc.2] at h
        obtain rfl := Option.some.inj h
        exact ⟨hren, _, sentUpTo_all hs hsize, by simp [ServePc.Fits, ServePc.tailBytes]⟩
  | sendingFinal size off =>
      simp only [hpc] at h hs
      obtain ⟨hren, rfl, rfl, hsent⟩ := hs
      by_cases hoff : off < s.file.content.length
      · rw [if_pos hoff, if_neg (pread_ne_nil hoff)] at h
        obtain rfl := Option.some.inj h
        exact ⟨hren, rfl, rfl, sentUpTo_read hsent _⟩
      · rw [if_neg hoff] at h
        obtain rfl := Option.some.inj h
        exact ⟨hren, _, sentUpTo_all hsent hoff, by simp [ServePc.Fits, ServePc.tailBytes]⟩
  | polling off =>
      simp only [hpc] at h hs
      obtain ⟨rfl, hs⟩ := hs
      split at h <;> obtain rfl := Option.some.inj h <;> exact ⟨rfl, hs⟩
  | reading off =>
      simp only [hpc] at h hs
      obtain ⟨rfl, hs⟩ := hs
      obtain rfl := Option.some.inj h
      exact ⟨rfl, sentUpTo_read hs _⟩
  | checking off =>
      simp only [hpc] at h hs
      obtain ⟨rfl, hs⟩ := hs
      by_cases hren : s.file.renamed = true
      · rw [if_pos hren] at h
        obtain rfl := Option.some.inj h
        exact ⟨hren, rfl, hs⟩
      · rw [if_neg hren] at h
        obtain rfl := Option.some.inj h
        exact ⟨rfl, hs⟩
  | tail off =>
      simp only [hpc] at h hs
      obtain ⟨hren, rfl, hs⟩ := hs
      by_cases hmore : s.file.content.length > off
      · rw [if_pos ⟨hren, hmore⟩, if_pos (halloc _)] at h
        obtain rfl := Option.some.inj h
        exact ⟨hren, rfl, rfl, hs⟩
      · rw [if_neg fun hc => hmore hc.2] at h
        obtain rfl := Option.some.inj h
        exact ⟨hren, _, sentUpTo_all hs hmore, by simp [ServePc.Fits, ServePc.tailBytes]⟩
  | closing =>
      simp only [hpc] at h hs
      obtain rfl := Option.some.inj h
      obtain ⟨hren, off, hsent, hwhole⟩ := hs
      exact ⟨hren, off, s.sent, hsent, rfl, hwhole⟩
  | done =>
      simp only [hpc] at h
      contradiction

/-- The muxer's steps: what was sent stays the front of a growing file. -/
theorem inv_append {hdr : List UInt8} {n : Nat} {s s' : Serving} {bytes : List UInt8}
    (hs : s.Inv hdr n) (h : progressiveStep alloc ct s (.append bytes) = some s') :
    s'.Inv hdr n := by
  simp only [progressiveStep] at h
  split at h
  swap
  · contradiction
  rename_i hcond
  obtain rfl := Option.some.inj h
  have hgrow : ∀ off, SentUpTo hdr s.file s.sent off →
      SentUpTo hdr ⟨s.file.content ++ bytes, false, hcond.2⟩ s.sent off := by
    intro off hoff
    refine ⟨?_, ?_⟩
    · have hle := hoff.le
      simp only [List.length_append]
      omega
    · simp only [List.take_append_of_le_length hoff.le]
      exact hoff.chunked
  have hfalse : s.file.renamed ≠ true := by simp [hcond.1]
  unfold Serving.Inv at hs ⊢
  cases hpc : s.pc with
  | start =>
      simp only [hpc] at hs ⊢
      exact hs
  | opening | polling off | reading off | checking off =>
      simp only [hpc] at hs ⊢
      exact hs.imp_right (hgrow _)
  | openingFinal | sendingFinal size off | tail off | tailRead off count | closing | done =>
      simp only [hpc] at hs
      exact absurd hs.1 hfalse

theorem inv_rename {hdr : List UInt8} {n : Nat} {s s' : Serving} (hs : s.Inv hdr n)
    (h : progressiveStep alloc ct s .rename = some s') : s'.Inv hdr n := by
  simp only [progressiveStep] at h
  split at h
  swap
  · contradiction
  rename_i hcond
  obtain rfl := Option.some.inj h
  have hfalse : s.file.renamed ≠ true := by simp [hcond]
  have hkeep : ∀ off, SentUpTo hdr s.file s.sent off →
      SentUpTo hdr { s.file with renamed := true } s.sent off :=
    fun off hoff => ⟨hoff.le, hoff.chunked⟩
  unfold Serving.Inv at hs ⊢
  cases hpc : s.pc with
  | start =>
      simp only [hpc] at hs ⊢
      exact hs
  | opening | polling off | reading off | checking off =>
      simp only [hpc] at hs ⊢
      exact hs.imp_right (hkeep _)
  | openingFinal | sendingFinal size off | tail off | tailRead off count | closing | done =>
      simp only [hpc] at hs
      exact absurd hs.1 hfalse

include halloc in
/-- **The invariant of muxer and server.** -/
theorem serve_invariant {n : Nat} {s s' : Serving} {op : ServeOp}
    (hs : s.Inv (httpHeaders 200 ct (-1) true) n) (h : progressiveStep alloc ct s op = some s') :
    s'.Inv (httpHeaders 200 ct (-1) true) (n + if s.Fits op then 0 else 1) := by
  cases op with
  | append bytes => simpa [Serving.Fits] using inv_append hs h
  | rename => simpa [Serving.Fits] using inv_rename hs h
  | serve => simpa [Serving.Fits] using inv_serve halloc hs h

/-- How far the server has to go once the file is final. -/
def Serving.remaining (s : Serving) : Nat :=
  match s.pc with
  | .start => s.file.content.length + 10
  | .opening => s.file.content.length + 9
  | .openingFinal => s.file.content.length + 3
  | .sendingFinal size off => size - off + 2
  | .polling _ => 6
  | .reading _ => 5
  | .checking _ => 4
  | .tail _ => 3
  | .tailRead _ _ => 2
  | .closing => 1
  | .done => 0

/-- Once the file is final every step brings the server closer to the end. -/
theorem remaining_serve {n : Nat} {s : Serving} (hs : s.Inv (httpHeaders 200 ct (-1) true) n)
    (hren : s.file.renamed = true) (hpc : s.pc ≠ .done) :
    ∃ t, serveStep alloc ct s = some t ∧ t.file = s.file ∧ t.remaining < s.remaining := by
  unfold serveStep
  unfold Serving.Inv at hs
  cases hcase : s.pc with
  | done => exact absurd hcase hpc
  | sendingFinal size off =>
      simp only [hcase] at hs
      obtain ⟨-, -, rfl, hsent⟩ := hs
      simp only
      by_cases hoff : off < s.file.content.length
      · have hdata := pread_ne_nil hoff
        have hpos := List.length_pos_iff.mpr hdata
        rw [if_pos hoff, if_neg hdata]
        refine ⟨_, rfl, rfl, ?_⟩
        simp only [Serving.remaining, hcase]
        omega
      · rw [if_neg hoff]
        refine ⟨_, rfl, rfl, ?_⟩
        simp only [Serving.remaining, hcase]
        omega
  | start | opening | openingFinal | polling off | reading off | checking off | tail off
  | tailRead off count | closing =>
      simp only [hren, true_and, if_true]
      repeat' split
      all_goals exact ⟨_, rfl, rfl, by simp [Serving.remaining, hcase]⟩

include halloc in
/-- Left to itself after the rename, the server finishes. -/
theorem serve_finishes {n : Nat} {s : Serving} (hs : s.Inv (httpHeaders 200 ct (-1) true) n)
    (hren : s.file.renamed = true) :
    ∃ k t, Run.exec (progressiveStep alloc ct) s (List.replicate k .serve) = some t ∧
      t.pc = .done ∧ t.file = s.file := by
  induction hn : s.remaining using Nat.strong_induction_on generalizing n s with
  | _ r ih =>
      by_cases hpc : s.pc = .done
      · exact ⟨0, s, rfl, hpc, rfl⟩
      · obtain ⟨t, ht, hfile, hlt⟩ := remaining_serve hs hren hpc
        obtain ⟨m, u, hu, hdone, hufile⟩ :=
          ih t.remaining (hn ▸ hlt) (inv_serve halloc hs ht) (by rw [hfile]; exact hren) rfl
        refine ⟨m + 1, u, ?_, hdone, by rw [hufile, hfile]⟩
        rw [List.replicate_succ, Run.exec_cons]
        simp only [progressiveStep, ht, Option.bind_some]
        exact hu

end Serving

end Vmc
