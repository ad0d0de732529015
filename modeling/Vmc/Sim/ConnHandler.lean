import Vmc.Client.Manifest
import Vmc.Client.TruncatedFetch

/-!
# Vmc.Sim.ConnHandler

One connection of the DASH server (`conn_handler` of
`tools/vmc-dash-sim/main.c`): the request line, and the search for the file that
was asked for.

The file may be there, may still be written under its `.tmp` name, or may not be
there yet; then the handler holds the connection and asks again every 30 ms, 500
times.  Every look at the file system is a step of its own, and between two of
them the muxer may create the file, append to it and rename it (`connStep`).

Nothing is removed: the muxer keeps a segment for 150 segments.  As in
`serveStep`, writes to the socket succeed and `g_run` stays set.  For the manifest
`/live.mpd`, which is sent without these looks (`Conn.accepted`), the muxer's
steps would have to replace a file that is there; what a connection answers is
proved for the other paths.
-/

namespace Vmc

open Bytes CInt

/-! ## the request line -/

/-- `%<width>s` of `sscanf`: a word and the text behind it. -/
def scanWord (width : Nat) (s : List UInt8) : Option (List UInt8 × List UInt8) :=
  let s := s.dropWhile isSpace
  let w := (s.take width).takeWhile fun c => !isSpace c
  if w = [] then none else some (w, s.drop w.length)

/-- The digits `%d` of `sscanf` reads, behind white space and a sign. -/
def scanDigits (s : List UInt8) : List UInt8 :=
  match s.dropWhile isSpace with
  | 45 :: ds => ds.takeWhile isDecimal
  | 43 :: ds => ds.takeWhile isDecimal
  | ds => ds.takeWhile isDecimal

/-- What is left behind `%d`. -/
def behindInt (s : List UInt8) : List UInt8 :=
  match s.dropWhile isSpace with
  | 45 :: ds => ds.dropWhile isDecimal
  | 43 :: ds => ds.dropWhile isDecimal
  | ds => ds.dropWhile isDecimal

/-- `%d` of `sscanf`: a number and the text behind it. -/
def scanInt (s : List UInt8) : Option (Int × List UInt8) :=
  if scanDigits s = [] then none else some (atoi s, behindInt s)

/-- The path in what one `recv` returned of a request, if its first line is
there and is a `GET`. -/
def requestPath (req : List UInt8) : Option (List UInt8) :=
  let text := cstr (req.take 2047)
  (strstr text (ascii "\r\n")).bind fun nl =>
    (scanWord 7 (text.take (text.length - nl.length))).bind fun (method, rest) =>
      (scanWord 511 rest).bind fun (path, _) => if method = ascii "GET" then some path else none

/-- `sscanf(path, "/chunk-stream%d-%d", ...) == 2`. -/
def scanSegment (path : List UInt8) : Option (Int × Int) :=
  if (ascii "/chunk-stream").isPrefixOf path then
    (scanInt (path.drop 13)).bind fun (stream, rest) =>
      if rest.head? = some 45 then (scanInt (rest.drop 1)).map fun r => (stream, r.1) else none
  else none

/-! ## the directory -/

/-- `%d`. -/
def printInt (n : Int) : List UInt8 :=
  if n < 0 then 45 :: Digits.print 10 n.natAbs else Digits.print 10 n.natAbs

def chunkPrefix (stream : Int) : List UInt8 := ascii "chunk-stream" ++ printInt stream ++ ascii "-"

/-- The number of a directory entry that belongs to the stream. -/
def chunkNumber (stream : Int) (name : List UInt8) : Option Int :=
  if (chunkPrefix stream).isPrefixOf name then some (atoi (name.drop (chunkPrefix stream).length))
  else none

/-- `newest_seg`; there is no listing if the directory cannot be opened. -/
def newestSeg (dir : Option (List (List UInt8))) (stream : Int) : Int :=
  match dir with
  | none => -1
  | some names =>
      names.foldl (fun best name =>
        match chunkNumber stream name with
        | none => best
        | some num => if num > best then num else best) (-1)

/-- A segment so far ahead of the newest one that it is not waited for. -/
def impossible (path : List UInt8) (dir : Option (List (List UInt8))) : Bool :=
  match scanSegment path with
  | none => false
  | some (stream, num) =>
      decide (0 ≤ newestSeg dir stream ∧ num > toInt (newestSeg dir stream + 30))

/-- A file as it is listed, unless it is in a directory below. -/
def entryNames (name : List UInt8) : Option SegFile → List (List UInt8)
  | none => []
  | some f => if 47 ∈ name then [] else [if f.renamed then name else name ++ ascii ".tmp"]

/-! ## the handler -/

/-- Where `conn_handler` is: the two `file_exists` in front, the look at the
newest segment, the two in the `i`-th turn of the loop, the two behind it,
`serve_full` and `serve_progressive`.  `held` says that the loop was entered. -/
inductive ConnPc where
  | asking
  | askingTmp
  | checking
  | holding (i : Nat)
  | holdingTmp (i : Nat)
  | ending
  | endingTmp
  | opening (held : Bool)
  | reading (held : Bool) (off : Nat)
  | progressive (held : Bool) (pc : ServePc)
  | closed
deriving DecidableEq, Repr

/-- The file asked for, the rest of the directory, the handler and the bytes
written to the socket. -/
structure Conn where
  entry : Option SegFile
  others : Option (List (List UInt8))
  pc : ConnPc
  sent : List UInt8

def Conn.finalThere (s : Conn) : Bool := s.entry.any (·.renamed)

def Conn.tmpThere (s : Conn) : Bool := s.entry.any (!·.renamed)

/-- The directory as `readdir` lists it. -/
def Conn.dir (name : List UInt8) (s : Conn) : Option (List (List UInt8)) :=
  s.others.map (· ++ entryNames name s.entry)

/-- The answer 404. -/
def notFound : List UInt8 := httpHeaders 404 "text/plain" (-1) false ++ ascii "Not Found\n"

/-- Behind the response: out of the loop, or done. -/
def afterServing (held : Bool) : ConnPc := if held then .ending else .closed

def isMpdPath (path : List UInt8) : Bool := (strstr path (ascii ".mpd")).isSome

/-- One step of the handler for a path, each with at most one look at the file
system. -/
def handlerStep (alloc : Nat → Bool) (path : List UInt8) (s : Conn) : Option Conn :=
  match s.pc with
  | .asking => some { s with pc := if s.finalThere then .opening false else .askingTmp }
  | .askingTmp =>
      some { s with pc := if s.tmpThere then .progressive false .start else .checking }
  | .checking =>
      if impossible path (s.dir (path.drop 1)) then
        some { s with pc := .closed, sent := s.sent ++ notFound }
      else some { s with pc := .holding 0 }
  | .holding i =>
      if i < 500 then
        some { s with pc := if s.finalThere then .opening true else .holdingTmp i }
      else some { s with pc := .ending }
  | .holdingTmp i =>
      some { s with pc := if s.tmpThere then .progressive true .start else .holding (i + 1) }
  | .ending => some { s with pc := if s.finalThere then .closed else .endingTmp }
  | .endingTmp =>
      if s.tmpThere then some { s with pc := .closed }
      else some { s with pc := .closed, sent := s.sent ++ notFound }
  | .opening held =>
      match s.entry with
      | none => some { s with pc := afterServing held, sent := s.sent ++ notFound }
      | some f =>
          if f.renamed then
            some { s with
              pc := .reading held 0
              sent := s.sent ++
                httpHeaders 200 (contentType (isMpdPath path)) f.content.length false }
          else some { s with pc := afterServing held, sent := s.sent ++ notFound }
  | .reading held off =>
      let data := (s.entry.map (·.pread serveCap off)).getD []
      if data = [] then some { s with pc := afterServing held }
      else some { s with pc := .reading held (off + data.length), sent := s.sent ++ data }
  | .progressive held pc =>
      if pc = .done then some { s with pc := afterServing held }
      else s.entry.bind fun f =>
        (serveStep alloc (contentType (isMpdPath path)) ⟨f, pc, s.sent⟩).map fun t =>
          { s with entry := some t.file, pc := .progressive held t.pc, sent := t.sent }
  | .closed => none

/-- The muxer appends to the file under its `.tmp` name. -/
def SegFile.grow (f : SegFile) (bytes : List UInt8) : Option SegFile :=
  if h : f.renamed = false ∧ (f.content ++ bytes).length < 2 ^ 63 then
    some ⟨f.content ++ bytes, false, h.2⟩
  else none

/-- The muxer renames the file. -/
def SegFile.finish (f : SegFile) : Option SegFile :=
  if f.renamed = false then some { f with renamed := true } else none

/-- A new file. -/
def SegFile.fresh : SegFile := ⟨[], false, by decide⟩

/-- The steps of muxer and handler.  `list` is a change of the other files. -/
inductive ConnOp where
  | create
  | append (bytes : List UInt8)
  | rename
  | list (names : Option (List (List UInt8)))
  | serve
deriving DecidableEq, Repr

def connStep (alloc : Nat → Bool) (path : List UInt8) (s : Conn) : ConnOp → Option Conn
  | .create => if s.entry.isNone then some { s with entry := some .fresh } else none
  | .append bytes => (s.entry.bind (·.grow bytes)).map fun f => { s with entry := some f }
  | .rename => (s.entry.bind (·.finish)).map fun f => { s with entry := some f }
  | .list names => some { s with others := names }
  | .serve => handlerStep alloc path s

/-- What the handler's next read of a tail is asked for. -/
def ConnPc.tailBytes : ConnPc → Nat
  | progressive _ pc => pc.tailBytes
  | _ => 0

/-- The condition on a step under which no tail is cut. -/
def Conn.Fits (s : Conn) (op : ConnOp) : Prop := op = .serve → s.pc.tailBytes ≤ maxRwCount

instance (s : Conn) (op : ConnOp) : Decidable (s.Fits op) :=
  inferInstanceAs (Decidable (op = .serve → s.pc.tailBytes ≤ maxRwCount))

/-! ## what has been answered -/

/-- The response is complete: the whole final file, in one of the two ways. -/
def Conn.Complete (mpd : Bool) (s : Conn) : Prop :=
  ∃ f, s.entry = some f ∧ f.renamed = true ∧
    (s.sent = serveFull mpd f.content ∨
      ∃ body, ChunkedAs (httpHeaders 200 (contentType mpd) (-1) true) body f.content ∧
        s.sent = body ++ lastChunk)

/-- What holds at each point of the handler, whatever the muxer does, if `n`
reads of a tail have been cut. -/
def Conn.Inv (mpd : Bool) (n : Nat) (s : Conn) : Prop :=
  match s.pc with
  | .asking | .askingTmp | .checking | .holding _ => n = 0 ∧ s.sent = []
  | .holdingTmp i => i < 500 ∧ n = 0 ∧ s.sent = []
  | .ending => n = 0 → s.sent = [] ∨ s.Complete mpd
  | .endingTmp => n = 0 → s.sent = []
  | .opening _ => s.sent = [] ∧ ∃ f, s.entry = some f ∧ f.renamed = true
  | .reading _ off =>
      ∃ f, s.entry = some f ∧ f.renamed = true ∧ off ≤ f.content.length ∧
        s.sent = httpHeaders 200 (contentType mpd) f.content.length false ++ f.content.take off
  | .progressive _ pc =>
      ∃ f, s.entry = some f ∧
        Serving.Inv (httpHeaders 200 (contentType mpd) (-1) true) n ⟨f, pc, s.sent⟩
  | .closed => n = 0 → s.sent = [] ∨ s.sent = notFound ∨ s.Complete mpd

theorem grow_eq_some {f g : SegFile} {bytes : List UInt8} (h : f.grow bytes = some g) :
    f.renamed = false ∧ g.renamed = false ∧
      ∀ alloc ct pc sent,
        progressiveStep alloc ct ⟨f, pc, sent⟩ (.append bytes) = some ⟨g, pc, sent⟩ := by
  unfold SegFile.grow at h
  split at h
  · rename_i hcond
    obtain rfl := Option.some.inj h
    exact ⟨hcond.1, rfl, fun _ _ _ _ => dif_pos hcond⟩
  · cases h

theorem finish_eq_some {f g : SegFile} (h : f.finish = some g) :
    f.renamed = false ∧ g.renamed = true ∧
      ∀ alloc ct pc sent, progressiveStep alloc ct ⟨f, pc, sent⟩ .rename = some ⟨g, pc, sent⟩ := by
  unfold SegFile.finish at h
  split at h
  · rename_i hcond
    obtain rfl := Option.some.inj h
    exact ⟨hcond, rfl, fun _ _ _ _ => if_pos hcond⟩
  · cases h

theorem finalThere_iff {s : Conn} :
    s.finalThere = true ↔ ∃ f, s.entry = some f ∧ f.renamed = true := by
  rw [Conn.finalThere, Option.any_eq_true]

theorem tmpThere_iff {s : Conn} :
    s.tmpThere = true ↔ ∃ f, s.entry = some f ∧ f.renamed = false := by
  rw [Conn.tmpThere, Option.any_eq_true]
  simp

/-- A step of the muxer, as the handler sees it: the file is new, or it is not
final yet and grows or becomes final. -/
inductive MuxerStep (s t : Conn) : Prop where
  | created (hnone : s.entry = none) (ht : t = { s with entry := some .fresh })
  | changed (f g : SegFile) (hentry : s.entry = some f) (ht : t = { s with entry := some g })
      (hopen : f.renamed = false)
      (hkeep : ∀ hdr n pc sent, Serving.Inv hdr n ⟨f, pc, sent⟩ → Serving.Inv hdr n ⟨g, pc, sent⟩)
  | listed (names : Option (List (List UInt8))) (ht : t = { s with others := names })

theorem muxerStep_of_step {alloc : Nat → Bool} {path : List UInt8} {s t : Conn} {op : ConnOp}
    (hop : op ≠ .serve) (h : connStep alloc path s op = some t) : MuxerStep s t := by
  cases op with
  | serve => exact absurd rfl hop
  | create =>
      simp only [connStep] at h
      split at h
      · rename_i hnone
        exact .created (Option.isNone_iff_eq_none.mp hnone) (Option.some.inj h).symm
      · cases h
  | append bytes =>
      obtain ⟨g, hg, rfl⟩ := Option.map_eq_some_iff.mp h
      obtain ⟨f, hf, hgrow⟩ := Option.bind_eq_some_iff.mp hg
      obtain ⟨hopen, -, hstep⟩ := grow_eq_some hgrow
      exact .changed f g hf rfl hopen fun hdr n pc sent hinv =>
        inv_append hinv (hstep alloc "" pc sent)
  | rename =>
      obtain ⟨g, hg, rfl⟩ := Option.map_eq_some_iff.mp h
      obtain ⟨f, hf, hfinish⟩ := Option.bind_eq_some_iff.mp hg
      obtain ⟨hopen, -, hstep⟩ := finish_eq_some hfinish
      exact .changed f g hf rfl hopen fun hdr n pc sent hinv =>
        inv_rename hinv (hstep alloc "" pc sent)
  | list names => exact .listed names (Option.some.inj h).symm

/-- A complete response stays complete: its file is final. -/
theorem MuxerStep.complete {mpd : Bool} {s t : Conn} (h : MuxerStep s t) (hs : s.Complete mpd) :
    t.Complete mpd := by
  obtain ⟨f, hf, hren, hsent⟩ := hs
  cases h with
  | created hnone ht =>
      rw [hnone] at hf
      cases hf
  | changed g g' hentry ht hopen hkeep =>
      obtain rfl := Option.some.inj (hf.symm.trans hentry)
      rw [hren] at hopen
      cases hopen
  | listed names ht =>
      subst ht
      exact ⟨f, hf, hren, hsent⟩

/-- The muxer's steps keep the invariant. -/
theorem MuxerStep.inv {mpd : Bool} {n : Nat} {s t : Conn} (h : MuxerStep s t)
    (hs : s.Inv mpd n) : t.Inv mpd n := by
  have hpc : t.pc = s.pc ∧ t.sent = s.sent := by
    cases h with
    | created hnone ht => exact ht ▸ ⟨rfl, rfl⟩
    | changed f g hentry ht hopen hkeep => exact ht ▸ ⟨rfl, rfl⟩
    | listed names ht => exact ht ▸ ⟨rfl, rfl⟩
  -- a final file is one the muxer is done with
  have hfinal : ∀ f, s.entry = some f → f.renamed = true → t.entry = some f := by
    intro f hf hren
    cases h with
    | created hnone ht =>
        rw [hnone] at hf
        cases hf
    | changed g g' hentry ht hopen hkeep =>
        obtain rfl := Option.some.inj (hf.symm.trans hentry)
        rw [hren] at hopen
        cases hopen
    | listed names ht => exact ht ▸ hf
  have hcomplete : s.Complete mpd → t.Complete mpd := fun hc => h.complete hc
  unfold Conn.Inv at hs ⊢
  rw [hpc.1]
  cases hcase : s.pc with
  | asking | askingTmp | checking | endingTmp | holding i | holdingTmp i =>
      simp only [hcase] at hs ⊢
      rw [hpc.2]
      exact hs
  | ending =>
      simp only [hcase] at hs ⊢
      rw [hpc.2]
      exact fun hn => (hs hn).imp_right hcomplete
  | opening held =>
      simp only [hcase] at hs ⊢
      obtain ⟨hsent, f, hf, hren⟩ := hs
      exact ⟨hpc.2.trans hsent, f, hfinal f hf hren, hren⟩
  | reading held off =>
      simp only [hcase] at hs ⊢
      obtain ⟨f, hf, hren, hoff, hsent⟩ := hs
      exact ⟨f, hfinal f hf hren, hren, hoff, hpc.2.trans hsent⟩
  | progressive held pc =>
      simp only [hcase] at hs ⊢
      obtain ⟨f, hf, hinv⟩ := hs
      rw [hpc.2]
      cases h with
      | created hnone ht =>
          rw [hnone] at hf
          cases hf
      | changed g g' hentry ht hopen hkeep =>
          obtain rfl := Option.some.inj (hf.symm.trans hentry)
          exact ⟨g', ht ▸ rfl, hkeep _ _ _ _ hinv⟩
      | listed names ht => exact ⟨f, ht ▸ hf, hinv⟩
  | closed =>
      simp only [hcase] at hs ⊢
      rw [hpc.2]
      exact fun hn => (hs hn).imp_right (Or.imp_right hcomplete)

/-- Behind a response. -/
theorem inv_afterServing {mpd held : Bool} {n : Nat} {s : Conn} (hpc : s.pc = afterServing held)
    (h : n = 0 → s.Complete mpd) : s.Inv mpd n := by
  unfold Conn.Inv
  rw [hpc]
  cases held with
  | true => exact fun hn => .inr (h hn)
  | false => exact fun hn => .inr (.inr (h hn))

section

variable {alloc : Nat → Bool} (halloc : ∀ n, alloc n = true) {path : List UInt8} {n : Nat}

/-- `serve_full` opens a file that is there. -/
theorem opening_cases {s t : Conn} {held : Bool} (hpc : s.pc = .opening held)
    (hs : s.Inv (isMpdPath path) n) (h : handlerStep alloc path s = some t) :
    t.Inv (isMpdPath path) n ∧ t.pc = .reading held 0 := by
  simp only [Conn.Inv, hpc] at hs
  obtain ⟨hsent, f, hf, hren⟩ := hs
  simp only [handlerStep, hpc, hf, if_pos hren, hsent, List.nil_append] at h
  obtain rfl := Option.some.inj h
  exact ⟨⟨f, rfl, hren, Nat.zero_le _, by rw [List.take_zero, List.append_nil]⟩, rfl⟩

/-- `serve_full` sends more of the file, or has sent all of it. -/
theorem reading_cases {s t : Conn} {held : Bool} {off : Nat} (hpc : s.pc = .reading held off)
    (hs : s.Inv (isMpdPath path) n) (h : handlerStep alloc path s = some t) :
    (t.pc = afterServing held ∧ t.Complete (isMpdPath path)) ∨
      (t.Inv (isMpdPath path) n ∧ ∃ off', t.pc = .reading held off') := by
  simp only [Conn.Inv, hpc] at hs
  obtain ⟨f, hf, hren, hoff, hsent⟩ := hs
  simp only [handlerStep, hpc, hf, Option.map_some, Option.getD_some] at h
  by_cases hdata : f.pread serveCap off = []
  · rw [if_pos hdata] at h
    obtain rfl := Option.some.inj h
    have hend : f.content.take off = f.content := by
      have hdrop : off = f.content.length := by
        simp only [SegFile.pread, serveCap, maxRwCount, List.take_eq_nil_iff,
          List.drop_eq_nil_iff] at hdata
        omega
      rw [hdrop, List.take_length]
    refine .inl ⟨rfl, f, rfl, hren, .inl ?_⟩
    rw [hsent, hend, serveFull]
  · rw [if_neg hdata] at h
    obtain rfl := Option.some.inj h
    refine .inr ⟨⟨f, rfl, hren, ?_, ?_⟩, _, rfl⟩
    · simp only [SegFile.pread, List.length_take, List.length_drop]
      omega
    · rw [hsent, List.append_assoc, take_append_pread]

include halloc in
/-- `serve_progressive` takes a step, or is done. -/
theorem progressive_cases {s t : Conn} {held : Bool} {pc : ServePc}
    (hpc : s.pc = .progressive held pc) (hs : s.Inv (isMpdPath path) n)
    (h : handlerStep alloc path s = some t) :
    (t.pc = afterServing held ∧ (n = 0 → t.Complete (isMpdPath path))) ∨
      (t.Inv (isMpdPath path) (n + if s.pc.tailBytes ≤ maxRwCount then 0 else 1) ∧
        ∃ pc', t.pc = .progressive held pc') := by
  simp only [Conn.Inv, hpc] at hs
  obtain ⟨f, hf, hinv⟩ := hs
  simp only [handlerStep, hpc, hf, Option.bind_some] at h
  by_cases hdone : pc = .done
  · subst hdone
    rw [if_pos rfl] at h
    obtain rfl := Option.some.inj h
    obtain ⟨hren, off, body, hbody, hsent, hwhole⟩ := hinv
    refine .inl ⟨rfl, fun hn => ⟨f, rfl, hren, .inr ⟨body, ?_, hsent⟩⟩⟩
    have hall := hbody.chunked
    rwa [hwhole.mpr hn, List.take_length] at hall
  · rw [if_neg hdone] at h
    obtain ⟨u, hu, rfl⟩ := Option.map_eq_some_iff.mp h
    rw [hpc]
    exact .inr ⟨⟨u.file, rfl, inv_serve halloc hinv hu⟩, _, rfl⟩

include halloc in
/-- The handler's steps keep the invariant. -/
theorem inv_handler {s t : Conn} (hs : s.Inv (isMpdPath path) n)
    (h : handlerStep alloc path s = some t) :
    t.Inv (isMpdPath path) (n + if s.pc.tailBytes ≤ maxRwCount then 0 else 1) := by
  cases hpc : s.pc with
  | progressive held pc =>
      obtain ⟨hafter, hcomplete⟩ | ⟨hinv, -⟩ := progressive_cases halloc hpc hs h
      · exact inv_afterServing hafter fun hn => hcomplete (by omega)
      · rwa [hpc] at hinv
  | opening held => exact (opening_cases hpc hs h).1
  | reading held off =>
      obtain ⟨hafter, hcomplete⟩ | ⟨hinv, -⟩ := reading_cases hpc hs h
      · exact inv_afterServing hafter fun _ => hcomplete
      · exact hinv
  | closed =>
      simp only [handlerStep, hpc] at h
      cases h
  | asking =>
      simp only [Conn.Inv, hpc] at hs
      simp only [handlerStep, hpc] at h
      obtain rfl := Option.some.inj h
      cases hthere : s.finalThere with
      | true => exact ⟨hs.2, finalThere_iff.mp hthere⟩
      | false => exact hs
  | askingTmp =>
      simp only [Conn.Inv, hpc] at hs
      simp only [handlerStep, hpc] at h
      obtain rfl := Option.some.inj h
      cases hthere : s.tmpThere with
      | true =>
          obtain ⟨f, hf, -⟩ := tmpThere_iff.mp hthere
          exact ⟨f, hf, hs⟩
      | false => exact hs
  | checking =>
      simp only [Conn.Inv, hpc] at hs
      simp only [handlerStep, hpc, hs.2, List.nil_append] at h
      split at h
      · obtain rfl := Option.some.inj h
        exact fun _ => .inr (.inl rfl)
      · obtain rfl := Option.some.inj h
        exact ⟨hs.1, rfl⟩
  | holding i =>
      simp only [Conn.Inv, hpc] at hs
      simp only [handlerStep, hpc] at h
      split at h
      · rename_i hi
        obtain rfl := Option.some.inj h
        cases hthere : s.finalThere with
        | true => exact ⟨hs.2, finalThere_iff.mp hthere⟩
        | false => exact ⟨hi, hs⟩
      · obtain rfl := Option.some.inj h
        exact fun _ => .inl hs.2
  | holdingTmp i =>
      simp only [Conn.Inv, hpc] at hs
      simp only [handlerStep, hpc] at h
      obtain rfl := Option.some.inj h
      cases hthere : s.tmpThere with
      | true =>
          obtain ⟨f, hf, -⟩ := tmpThere_iff.mp hthere
          exact ⟨f, hf, hs.2⟩
      | false => exact hs.2
  | ending =>
      simp only [Conn.Inv, hpc] at hs
      simp only [handlerStep, hpc] at h
      obtain rfl := Option.some.inj h
      cases hthere : s.finalThere with
      | true => exact fun hn => (hs hn).imp_right .inr
      | false =>
          refine fun hn => (hs hn).resolve_right fun hcomplete => ?_
          obtain ⟨f, hf, hren, -⟩ := hcomplete
          rw [finalThere_iff.mpr ⟨f, hf, hren⟩] at hthere
          cases hthere
  | endingTmp =>
      simp only [Conn.Inv, hpc] at hs
      simp only [handlerStep, hpc] at h
      split at h
      · obtain rfl := Option.some.inj h
        exact fun hn => .inl (hs hn)
      · obtain rfl := Option.some.inj h
        exact fun hn => .inr (.inl (by rw [hs hn, List.nil_append]))

include halloc in
/-- **The invariant of muxer and handler.** -/
theorem conn_invariant {s t : Conn} {op : ConnOp} (hs : s.Inv (isMpdPath path) n)
    (h : connStep alloc path s op = some t) :
    t.Inv (isMpdPath path) (n + if s.Fits op then 0 else 1) := by
  by_cases hop : op = .serve
  · subst hop
    simpa [Conn.Fits] using inv_handler halloc hs h
  · simpa [Conn.Fits, hop] using (muxerStep_of_step hop h).inv hs

end

/-! ## a segment that is there -/

/-- What holds at each point if the file was there when the request came.  The
file is not seen only if it is renamed between the two looks, and then the
first turn of the loop finds it. -/
def Conn.Present (mpd : Bool) (s : Conn) : Prop :=
  match s.pc with
  | .asking | .askingTmp => s.entry.isSome = true
  | .checking => s.finalThere = true
  | .holding i => i = 0 ∧ s.finalThere = true
  | .holdingTmp _ | .endingTmp => False
  | .opening _ | .reading _ _ | .progressive _ _ => True
  | .ending | .closed => s.Complete mpd

theorem MuxerStep.present {mpd : Bool} {s t : Conn} (h : MuxerStep s t) (hs : s.Present mpd) :
    t.Present mpd := by
  have hpc : t.pc = s.pc := by
    cases h with
    | created hnone ht => exact ht ▸ rfl
    | changed f g hentry ht hopen hkeep => exact ht ▸ rfl
    | listed names ht => exact ht ▸ rfl
  have hsome : s.entry.isSome = true → t.entry.isSome = true := by
    intro hin
    cases h with
    | created hnone ht => exact ht ▸ rfl
    | changed f g hentry ht hopen hkeep => exact ht ▸ rfl
    | listed names ht => exact ht ▸ hin
  have hfinal : s.finalThere = true → t.finalThere = true := by
    intro hin
    obtain ⟨f, hf, hren⟩ := finalThere_iff.mp hin
    cases h with
    | created hnone ht =>
        rw [hnone] at hf
        cases hf
    | changed g g' hentry ht hopen hkeep =>
        obtain rfl := Option.some.inj (hf.symm.trans hentry)
        rw [hren] at hopen
        cases hopen
    | listed names ht => exact ht ▸ hin
  unfold Conn.Present at hs ⊢
  rw [hpc]
  cases hcase : s.pc with
  | asking | askingTmp =>
      simp only [hcase] at hs
      exact hsome hs
  | checking =>
      simp only [hcase] at hs
      exact hfinal hs
  | holding i =>
      simp only [hcase] at hs
      exact ⟨hs.1, hfinal hs.2⟩
  | holdingTmp i | endingTmp =>
      simp only [hcase] at hs
  | opening held | reading held off | progressive held pc => trivial
  | ending | closed =>
      simp only [hcase] at hs
      exact h.complete hs

theorem present_afterServing {mpd held : Bool} {s : Conn} (hpc : s.pc = afterServing held)
    (h : s.Complete mpd) : s.Present mpd := by
  unfold Conn.Present
  rw [hpc]
  cases held with
  | true => exact h
  | false => exact h

/-- The handler's steps, unless the newest segment is so far back that the one
asked for is taken for impossible. -/
theorem present_handler {alloc : Nat → Bool} (halloc : ∀ n, alloc n = true) {path : List UInt8}
    {s t : Conn} (hinv : s.Inv (isMpdPath path) 0) (hs : s.Present (isMpdPath path))
    (hpossible : s.pc = .checking → impossible path (s.dir (path.drop 1)) = false)
    (h : handlerStep alloc path s = some t) : t.Present (isMpdPath path) := by
  cases hpc : s.pc with
  | closed =>
      simp only [handlerStep, hpc] at h
      cases h
  | asking =>
      simp only [Conn.Present, hpc] at hs
      simp only [handlerStep, hpc] at h
      obtain rfl := Option.some.inj h
      cases hthere : s.finalThere with
      | true => trivial
      | false => exact hs
  | askingTmp =>
      simp only [Conn.Present, hpc] at hs
      simp only [handlerStep, hpc] at h
      obtain rfl := Option.some.inj h
      cases hthere : s.tmpThere with
      | true => trivial
      | false =>
          obtain ⟨f, hf⟩ := Option.isSome_iff_exists.mp hs
          refine finalThere_iff.mpr ⟨f, hf, ?_⟩
          by_contra hren
          rw [tmpThere_iff.mpr ⟨f, hf, Bool.eq_false_iff.mpr hren⟩] at hthere
          cases hthere
  | checking =>
      simp only [Conn.Present, hpc] at hs
      simp only [handlerStep, hpc, hpossible hpc] at h
      obtain rfl := Option.some.inj h
      exact ⟨rfl, hs⟩
  | holding i =>
      simp only [Conn.Present, hpc] at hs
      obtain ⟨rfl, hthere⟩ := hs
      simp only [handlerStep, hpc, hthere] at h
      obtain rfl := Option.some.inj h
      trivial
  | holdingTmp i | endingTmp =>
      simp only [Conn.Present, hpc] at hs
  | ending =>
      simp only [Conn.Present, hpc] at hs
      obtain ⟨f, hf, hren, hsent⟩ := hs
      simp only [handlerStep, hpc, finalThere_iff.mpr ⟨f, hf, hren⟩] at h
      obtain rfl := Option.some.inj h
      exact ⟨f, hf, hren, hsent⟩
  | opening held =>
      have hnext := (opening_cases hpc hinv h).2
      rw [Conn.Present, hnext]
      trivial
  | reading held off =>
      obtain ⟨hafter, hcomplete⟩ | ⟨-, off', hnext⟩ := reading_cases hpc hinv h
      · exact present_afterServing hafter hcomplete
      · rw [Conn.Present, hnext]
        trivial
  | progressive held pc =>
      obtain ⟨hafter, hcomplete⟩ | ⟨-, pc', hnext⟩ := progressive_cases halloc hpc hinv h
      · exact present_afterServing hafter (hcomplete rfl)
      · rw [Conn.Present, hnext]
        trivial

/-- The handler does not touch the other files. -/
theorem others_handler {alloc : Nat → Bool} {path : List UInt8} {s t : Conn}
    (h : handlerStep alloc path s = some t) : t.others = s.others := by
  unfold handlerStep at h
  cases hpc : s.pc with
  | closed =>
      simp only [hpc] at h
      cases h
  | progressive held pc =>
      simp only [hpc] at h
      split at h
      · rw [← Option.some.inj h]
      · obtain ⟨f, -, hmap⟩ := Option.bind_eq_some_iff.mp h
        obtain ⟨u, -, rfl⟩ := Option.map_eq_some_iff.mp hmap
        rfl
  | opening held =>
      simp only [hpc] at h
      split at h
      · rw [← Option.some.inj h]
      · split at h <;> rw [← Option.some.inj h]
  | asking | askingTmp | holdingTmp i | ending =>
      simp only [hpc] at h
      rw [← Option.some.inj h]
  | checking | holding i | endingTmp | reading held off =>
      simp only [hpc] at h
      split at h <;> rw [← Option.some.inj h]

/-! ## the handler finishes -/

/-- How far the handler has to go while the muxer rests. -/
def Conn.rank (s : Conn) : Nat :=
  let size := (s.entry.map (·.content.length)).getD 0
  match s.pc with
  | .asking => size + 1040
  | .askingTmp => size + 1039
  | .checking => size + 1038
  | .holding i => size + 30 + 2 * (501 - i)
  | .holdingTmp i => size + 29 + 2 * (501 - i)
  | .opening _ => size + 14
  | .progressive _ pc => (s.entry.elim 0 fun f => Serving.remaining ⟨f, pc, s.sent⟩) + 3
  | .reading _ off => size - off + 3
  | .ending => 2
  | .endingTmp => 1
  | .closed => 0

/-- The muxer leaves no file unfinished. -/
def Conn.Settled (s : Conn) : Prop := s.tmpThere = false

theorem Conn.Settled.renamed {s : Conn} (h : s.Settled) {f : SegFile} (hf : s.entry = some f) :
    f.renamed = true := by
  by_contra hren
  rw [Conn.Settled, tmpThere_iff.mpr ⟨f, hf, Bool.eq_false_iff.mpr hren⟩] at h
  cases h

/-- Every step of the handler brings it closer to the end, unless it waits for
the muxer to finish the file. -/
theorem rank_handler {alloc : Nat → Bool} {path : List UInt8} {n : Nat} {s : Conn}
    (hs : s.Inv (isMpdPath path) n) (hsettled : s.Settled) (hopen : s.pc ≠ .closed) :
    ∃ t, handlerStep alloc path s = some t ∧ t.entry = s.entry ∧ t.rank < s.rank := by
  have htmp : s.tmpThere = false := hsettled
  cases hpc : s.pc with
  | closed => exact absurd hpc hopen
  | asking =>
      simp only [handlerStep, hpc]
      refine ⟨_, rfl, rfl, ?_⟩
      cases s.finalThere <;> simp [Conn.rank, hpc]
  | askingTmp =>
      simp only [handlerStep, hpc, htmp]
      refine ⟨_, rfl, rfl, ?_⟩
      simp [Conn.rank, hpc]
  | checking =>
      simp only [handlerStep, hpc]
      split
      · exact ⟨_, rfl, rfl, by simp [Conn.rank, hpc]⟩
      · exact ⟨_, rfl, rfl, by simp [Conn.rank, hpc]⟩
  | holding i =>
      simp only [handlerStep, hpc]
      split
      · refine ⟨_, rfl, rfl, ?_⟩
        cases s.finalThere
        · simp [Conn.rank, hpc]
        · simp [Conn.rank, hpc]
          omega
      · refine ⟨_, rfl, rfl, ?_⟩
        simp [Conn.rank, hpc]
        omega
  | holdingTmp i =>
      simp only [Conn.Inv, hpc] at hs
      simp only [handlerStep, hpc, htmp]
      refine ⟨_, rfl, rfl, ?_⟩
      simp [Conn.rank, hpc]
      omega
  | ending =>
      simp only [handlerStep, hpc]
      refine ⟨_, rfl, rfl, ?_⟩
      cases s.finalThere <;> simp [Conn.rank, hpc]
  | endingTmp =>
      simp only [handlerStep, hpc, htmp]
      exact ⟨_, rfl, rfl, by simp [Conn.rank, hpc]⟩
  | opening held =>
      simp only [Conn.Inv, hpc] at hs
      obtain ⟨-, f, hf, hren⟩ := hs
      simp only [handlerStep, hpc, hf, if_pos hren]
      refine ⟨_, rfl, rfl, ?_⟩
      simp [Conn.rank, hpc, hf]
  | reading held off =>
      simp only [Conn.Inv, hpc] at hs
      obtain ⟨f, hf, -, hoff, -⟩ := hs
      simp only [handlerStep, hpc, hf, Option.map_some, Option.getD_some]
      split
      · refine ⟨_, rfl, rfl, ?_⟩
        cases held <;> simp [Conn.rank, hpc, hf, afterServing]
      · rename_i hdata
        have hpos := List.length_pos_iff.mpr hdata
        have hmore : (f.pread serveCap off).length ≤ f.content.length - off := by
          simp [SegFile.pread]
        refine ⟨_, rfl, rfl, ?_⟩
        simp only [Conn.rank, hpc, hf, Option.map_some, Option.getD_some]
        omega
  | progressive held pc =>
      simp only [Conn.Inv, hpc] at hs
      obtain ⟨f, hf, hinv⟩ := hs
      simp only [handlerStep, hpc, hf, Option.bind_some]
      split
      · refine ⟨_, rfl, rfl, ?_⟩
        cases held <;> simp [Conn.rank, hpc, hf, afterServing]
      · rename_i hdone
        obtain ⟨u, hu, hfile, hlt⟩ :=
          @remaining_serve alloc _ _ _ hinv (hsettled.renamed hf) hdone
        rw [hu]
        refine ⟨_, rfl, ?_, ?_⟩
        · exact congrArg some hfile
        · simp only [Conn.rank, hpc, hf, Option.elim_some]
          exact Nat.add_lt_add_right hlt 3

/-- Left to itself the handler closes the connection. -/
theorem handler_finishes {alloc : Nat → Bool} (halloc : ∀ n, alloc n = true) {path : List UInt8}
    {n : Nat} {s : Conn} (hs : s.Inv (isMpdPath path) n) (hsettled : s.Settled) :
    ∃ k t, Run.exec (connStep alloc path) s (List.replicate k .serve) = some t ∧
      t.pc = .closed ∧ t.entry = s.entry := by
  induction hn : s.rank using Nat.strong_induction_on generalizing n s with
  | _ r ih =>
      by_cases hpc : s.pc = .closed
      · exact ⟨0, s, rfl, hpc, rfl⟩
      · obtain ⟨t, ht, hentry, hlt⟩ := @rank_handler alloc _ _ _ hs hsettled hpc
        have hsettled' : t.Settled := by
          rw [Conn.Settled, Conn.tmpThere, hentry]
          exact hsettled
        obtain ⟨m, u, hu, hclosed, huentry⟩ :=
          ih t.rank (hn ▸ hlt) (inv_handler halloc hs ht) hsettled' rfl
        refine ⟨m + 1, u, ?_, hclosed, huentry.trans hentry⟩
        rw [List.replicate_succ, Run.exec_cons]
        simp only [connStep, ht, Option.bind_some]
        exact hu

end Vmc
