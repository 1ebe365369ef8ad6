import Mathlib.Data.List.TakeWhile
import NetBox.Lib.Feed

/-! # A directory listing that arrives in chunks

`AddData` appends a chunk to its buffer and takes the complete lines out of it. The
line parsers, and what is done with an entry they have found, are parameters.
A line ends with a run of line end characters, and a chunk may end anywhere, also
inside such a run. The byte machine below has no chunks; `AddData` is compared
with it on chunks without a null character, since appending to the buffer stops at
the first one.
-/
namespace NetBox.Ftp
open Lib List

abbrev Byte := UInt8

/-- A line parser: from the state of the object and the line to an entry, if it is
one, and the new state; which entries are left out; and how an entry is added. -/
structure Parser (σ ε : Type) where
  parseLine : σ → List Byte → Option ε × σ
  isDots : ε → Bool
  addLine : σ → List ε → ε → σ × List ε

structure ListResult (σ ε : Type) where
  buffer : List Byte
  entryList : List ε
  parser : σ
  consecutiveParseFailures : Nat
  totalLinesProcessed : Nat
  listingParseFailed : Bool

def maxConsecutiveParseFailures : Nat := 100
def maxTotalLines : Nat := 100000
def maxListingBufferSize : Nat := 10 * 1024 * 1024

/-- A null character is taken for a line end too. -/
def isNewLineChar (c : Byte) : Bool := c == 13 || c == 10 || c == 0

variable {σ ε : Type} (p : Parser σ ε)

/-- One line. The result says whether the loop is left because of a limit. -/
def processRecord (record : List Byte) (st : ListResult σ ε) : Bool × ListResult σ ε :=
  let st := { st with totalLinesProcessed := st.totalLinesProcessed + 1 }
  if st.totalLinesProcessed > maxTotalLines then (true, { st with listingParseFailed := true })
  else
    let line := record.map fun c => if isNewLineChar c then 32 else c
    match p.parseLine st.parser line with
    | (some entry, parser) =>
      let (parser, entryList) :=
        if p.isDots entry then (parser, st.entryList) else p.addLine parser st.entryList entry
      (false, { st with parser, entryList, consecutiveParseFailures := 0 })
    | (none, parser) =>
      let st := { st with parser, consecutiveParseFailures := st.consecutiveParseFailures + 1 }
      if st.consecutiveParseFailures ≥ maxConsecutiveParseFailures then
        (true, { st with listingParseFailed := true })
      else (false, st)

/-- Takes the complete lines out of the buffer. Each of them makes it shorter. -/
def takeLines : Nat → ListResult σ ε → ListResult σ ε
  | 0, st => st
  | fuel + 1, st =>
    let record := st.buffer.takeWhile fun c => !isNewLineChar c
    match st.buffer.dropWhile fun c => !isNewLineChar c with
    | [] => st
    | rest =>
      match processRecord p record st with
      | (true, st) => { st with buffer := [] }
      | (false, st) => takeLines fuel { st with buffer := rest.dropWhile isNewLineChar }

/-- `Append` reads the appended string up to its first null character. -/
def append (buffer data : List Byte) : List Byte := buffer ++ data.takeWhile (· != 0)

def addData (st : ListResult σ ε) (data : List Byte) : ListResult σ ε :=
  if st.buffer.length + data.length > maxListingBufferSize then
    { st with listingParseFailed := true, buffer := [] }
  else
    -- the previous chunk may have ended between CR and LF
    let buffer := (append st.buffer data).dropWhile isNewLineChar
    takeLines p (buffer.length + 1) { st with buffer }

/-- The object before the first chunk. -/
def fresh (parser : σ) : ListResult σ ε := ⟨[], [], parser, 0, 0, false⟩

/-- What `getList` returns or raises: the entries with the state of the object and
the unparsed rest, or the error. -/
def getList (st : ListResult σ ε) : Except Unit (List ε × σ × List Byte) :=
  if st.listingParseFailed then .error () else .ok (st.entryList, st.parser, st.buffer)

/-! ## The byte machine -/

/-- One byte. The first line end completes a line, the others of its run are
passed over. Nothing happens any more after a failure. -/
def feed (st : ListResult σ ε) (c : Byte) : ListResult σ ε :=
  if st.listingParseFailed then st
  else if isNewLineChar c then
    if st.buffer = [] then st else { (processRecord p st.buffer st).2 with buffer := [] }
  else { st with buffer := st.buffer ++ [c] }

variable {p} {st : ListResult σ ε}

theorem processRecord_buffer (record buffer : List Byte) (st : ListResult σ ε) :
    processRecord p record { st with buffer } =
      ((processRecord p record st).1, { (processRecord p record st).2 with buffer }) := by
  unfold processRecord
  dsimp only
  split
  · rfl
  · split
    · rfl
    · split <;> rfl

/-- A line leaves the loop exactly when it fails. -/
theorem processRecord_failed (h : st.listingParseFailed = false) (record : List Byte) :
    (processRecord p record st).2.listingParseFailed = (processRecord p record st).1 := by
  unfold processRecord
  dsimp only
  split
  · rfl
  · split
    · exact h
    · split
      · rfl
      · exact h

theorem processRecord_stays (h : st.listingParseFailed = true) (record : List Byte) :
    (processRecord p record st).2.listingParseFailed = true := by
  unfold processRecord
  dsimp only
  split
  · rfl
  · split
    · exact h
    · split
      · rfl
      · exact h

theorem takeLines_stays (fuel : Nat) (h : st.listingParseFailed = true) :
    (takeLines p fuel st).listingParseFailed = true := by
  induction fuel generalizing st with
  | zero => exact h
  | succ fuel ih =>
    rw [takeLines]
    split
    · exact h
    · have hstays := processRecord_stays (p := p) h (st.buffer.takeWhile fun c => !isNewLineChar c)
      split
      · next hrecord => rw [hrecord] at hstays; exact hstays
      · next hrecord => rw [hrecord] at hstays; exact ih hstays

theorem foldl_feed_failed (st : ListResult σ ε) (h : st.listingParseFailed = true)
    (data : List Byte) :
    data.foldl (feed p) st = st := by
  induction data with
  | nil => rfl
  | cons c data ih => rw [foldl_cons, feed, if_pos h, ih]

theorem foldl_feed_plain (st : ListResult σ ε) (h : st.listingParseFailed = false)
    {line : List Byte}
    (hline : ∀ c ∈ line, isNewLineChar c = false) :
    line.foldl (feed p) st = { st with buffer := st.buffer ++ line } := by
  induction line generalizing st with
  | nil => simp
  | cons c line ih =>
    have hc : feed p st c = { st with buffer := st.buffer ++ [c] } := by
      simp [feed, h, hline c mem_cons_self]
    rw [foldl_cons, hc, ih { st with buffer := st.buffer ++ [c] } h
      fun d hd => hline d (mem_cons_of_mem _ hd)]
    simp

theorem foldl_feed_newLines (st : ListResult σ ε) (h : st.buffer = []) (data : List Byte) :
    data.foldl (feed p) st = (data.dropWhile isNewLineChar).foldl (feed p) st := by
  induction data with
  | nil => rfl
  | cons c data ih =>
    rw [dropWhile_cons]
    split
    · next hc =>
      have hfeed : feed p st c = st := by simp [feed, hc, h]
      rw [foldl_cons, hfeed, ih]
    · rfl

/-- What is left in the buffer is no complete line. -/
def NoLine (st : ListResult σ ε) : Prop := ∀ c ∈ st.buffer, isNewLineChar c = false

/-- Taking out the lines of a buffer does what its bytes do one by one. -/
theorem takeLines_feed {fuel : Nat} {buffer : List Byte} (h : st.listingParseFailed = false)
    (hfuel : buffer.length < fuel) (hhead : ∀ c, buffer.head? = some c → isNewLineChar c = false) :
    ((buffer.foldl (feed p) { st with buffer := [] }).listingParseFailed = true ∧
        (takeLines p fuel { st with buffer }).listingParseFailed = true) ∨
      (takeLines p fuel { st with buffer } = buffer.foldl (feed p) { st with buffer := [] } ∧
        NoLine (takeLines p fuel { st with buffer })) := by
  induction fuel generalizing st buffer with
  | zero => exact absurd hfuel (Nat.not_lt_zero _)
  | succ fuel ih =>
    obtain ⟨record, hrecord⟩ : ∃ record, record = buffer.takeWhile fun c => !isNewLineChar c :=
      ⟨_, rfl⟩
    have hsplit : record ++ buffer.dropWhile (fun c => !isNewLineChar c) = buffer := by
      rw [hrecord]
      exact takeWhile_append_dropWhile
    have hplain : ∀ c ∈ record, isNewLineChar c = false := by
      intro c hc
      rw [hrecord] at hc
      simpa using all_eq_true.mp all_takeWhile c hc
    rw [takeLines]
    dsimp only
    rw [← hrecord]
    cases hrest : buffer.dropWhile fun c => !isNewLineChar c with
    | nil =>
      rw [hrest, append_nil] at hsplit
      subst hsplit
      refine .inr ⟨?_, hplain⟩
      rw [foldl_feed_plain { st with buffer := [] } h hplain]
      rfl
    | cons c rest =>
      rw [hrest] at hsplit
      have hc : isNewLineChar c = true := by
        have hnot := head?_dropWhile_not (fun c => !isNewLineChar c) buffer
        rw [hrest] at hnot
        simpa using hnot
      have hne : record ≠ [] := by
        intro hnil
        rw [hnil] at hsplit
        have hfirst := hhead c (by rw [← hsplit]; rfl)
        rw [hfirst] at hc
        cases hc
      have hfold : buffer.foldl (feed p) { st with buffer := [] } =
          rest.foldl (feed p) { (processRecord p record st).2 with buffer := [] } := by
        have hline : record.foldl (feed p) { st with buffer := [] } = { st with buffer := record } :=
          foldl_feed_plain { st with buffer := [] } h hplain
        have hend : feed p { st with buffer := record } c =
            { (processRecord p record st).2 with buffer := [] } := by
          rw [feed, if_neg (by simp [h]), if_pos hc, if_neg hne, processRecord_buffer]
        rw [← hsplit, foldl_append, hline, foldl_cons, hend]
      have hfailed := processRecord_failed (p := p) h record
      have hrecords : processRecord p record { st with buffer } =
          ((processRecord p record st).1, { (processRecord p record st).2 with buffer }) :=
        processRecord_buffer record buffer st
      rw [hfold]
      dsimp only
      rw [hrecords]
      generalize processRecord p record st = o at hfailed
      obtain ⟨broke, t⟩ := o
      cases broke with
      | true =>
        refine .inl ⟨?_, hfailed⟩
        rw [foldl_feed_failed { t with buffer := [] } hfailed]
        exact hfailed
      | false =>
        dsimp only
        rw [foldl_feed_newLines _ rfl, dropWhile_cons, if_pos hc]
        have hlength : (rest.dropWhile isNewLineChar).length < fuel := by
          have hle := (dropWhile_suffix (l := rest) isNewLineChar).length_le
          have htotal := congrArg List.length hsplit
          simp only [length_append, length_cons] at htotal
          omega
        refine @ih t _ hfailed hlength fun d hd => ?_
        have hnot := head?_dropWhile_not isNewLineChar rest
        rw [hd] at hnot
        simpa using hnot

theorem feed_buffer_length (st : ListResult σ ε) (c : Byte) :
    (feed p st c).buffer.length ≤ st.buffer.length + 1 := by
  unfold feed
  split
  · exact Nat.le_succ _
  · split
    · split
      · exact Nat.le_succ _
      · exact Nat.zero_le _
    · simp

theorem foldl_feed_buffer_length (data : List Byte) (st : ListResult σ ε) :
    (data.foldl (feed p) st).buffer.length ≤ st.buffer.length + data.length := by
  induction data generalizing st with
  | nil => simp
  | cons c data ih =>
    have hc := feed_buffer_length (p := p) st c
    have hrest := ih (feed p st c)
    rw [foldl_cons, length_cons]
    omega

theorem append_eq (buffer : List Byte) {data : List Byte} (hnull : 0 ∉ data) :
    append buffer data = buffer ++ data := by
  have hall : ∀ c ∈ data, (c != 0) = true := fun c hc =>
    bne_iff_ne.mpr fun h => hnull (h ▸ hc)
  rw [append, takeWhile_eq_self_iff.mpr hall]

/-- A chunk for which there is room does what its bytes do one by one. -/
theorem addData_feed {data : List Byte} (h : st.listingParseFailed = false) (hline : NoLine st)
    (hroom : st.buffer.length + data.length ≤ maxListingBufferSize) (hnull : 0 ∉ data) :
    ((data.foldl (feed p) st).listingParseFailed = true ∧
        (addData p st data).listingParseFailed = true) ∨
      (addData p st data = data.foldl (feed p) st ∧ NoLine (addData p st data)) := by
  have hfold : ((st.buffer ++ data).dropWhile isNewLineChar).foldl (feed p)
      { st with buffer := [] } = data.foldl (feed p) st := by
    rw [← foldl_feed_newLines _ rfl, foldl_append,
      foldl_feed_plain { st with buffer := [] } h hline]
    rfl
  rw [addData, if_neg (Nat.not_lt.mpr hroom), append_eq _ hnull, ← hfold]
  refine takeLines_feed h (Nat.lt_succ_self _) fun c hc => ?_
  have hnot := head?_dropWhile_not isNewLineChar (st.buffer ++ data)
  rw [hc] at hnot
  simpa using hnot

theorem addData_stays (h : st.listingParseFailed = true) (data : List Byte) :
    (addData p st data).listingParseFailed = true := by
  unfold addData
  split
  · rfl
  · exact takeLines_stays _ h

/-- What `getList` gives after chunks with room for all of them depends on the bytes
alone. -/
theorem getList_chunks (parser : σ) (chunks : List (List Byte))
    (hroom : chunks.flatten.length ≤ maxListingBufferSize) (hnull : 0 ∉ chunks.flatten) :
    getList (chunks.foldl (addData p) (fresh parser)) =
      getList (chunks.flatten.foldl (feed p) (fresh parser)) := by
  have hall := Feed.foldl_take (addData p) (feed p) (fun st => st.listingParseFailed = true) NoLine
    (fun st data => st.buffer.length + data.length ≤ maxListingBufferSize ∧ 0 ∉ data)
    (fun st piece rest hr => by
      have hlength := foldl_feed_buffer_length (p := p) piece st
      rw [length_append, mem_append, not_or] at hr
      exact ⟨by omega, hr.2.2⟩)
    (fun st piece h => by rw [foldl_feed_failed st h]; exact h)
    (fun st piece h => addData_stays h piece)
    (fun st piece rest h hline hr => by
      rw [length_append, mem_append, not_or] at hr
      exact addData_feed (Bool.eq_false_iff.mpr h) hline (by omega) hr.2.1)
    (fresh parser) (fun c hc => (not_mem_nil hc).elim) chunks
    ⟨by rwa [fresh, length_nil, Nat.zero_add], hnull⟩
  rcases hall with ⟨hfeed, htake⟩ | ⟨-, heq⟩
  · rw [getList, getList, if_pos hfeed, if_pos htake]
  · rw [heq]

/-- A listing without a null character does not depend on its chunks: two ways of
cutting it lead to the same error, or to the same entries, state of the parser and
unparsed rest. -/
theorem listing_chunks {σ ε : Type} (p : Parser σ ε) (parser : σ) (chunks chunks' : List (List Byte))
    (hsame : chunks.flatten = chunks'.flatten)
    (hsize : chunks.flatten.length ≤ maxListingBufferSize) (hnull : 0 ∉ chunks.flatten) :
    getList (chunks.foldl (addData p) (fresh parser)) =
      getList (chunks'.foldl (addData p) (fresh parser)) := by
  rw [getList_chunks parser chunks hsize hnull, hsame,
    getList_chunks parser chunks' (hsame ▸ hsize) (hsame ▸ hnull)]

/-- Every line is an entry. -/
def namesOnly : Parser Unit (List Byte) where
  parseLine := fun s line => (some line, s)
  isDots := fun e => e == [46] || e == [46, 46]
  addLine := fun s entries e => (s, entries ++ [e])

/-- Two lines in one chunk, and cut inside a line and between CR and LF. -/
theorem listing_chunks_sample :
    getList ([[97, 98, 13, 10, 99, 13, 10, 100]].foldl (addData namesOnly) (fresh ())) =
      getList ([[97], [98, 13], [10, 99, 13], [10, 100]].foldl (addData namesOnly) (fresh ())) :=
  listing_chunks namesOnly () _ _ rfl (by decide) (by decide)

/-- One chunk loses what stands behind its null character. Cut there, the listing
has an entry. -/
theorem listing_null_lost :
    [[97, 0, 98, 13, 10]].flatten = ([[97, 0], [98, 13, 10]] : List (List Byte)).flatten ∧
      getList ([[97, 0, 98, 13, 10]].foldl (addData namesOnly) (fresh ())) =
        .ok ([], (), [97]) ∧
      getList ([[97, 0], [98, 13, 10]].foldl (addData namesOnly) (fresh ())) =
        .ok ([[97, 98]], (), []) :=
  ⟨rfl, rfl, rfl⟩

end NetBox.Ftp
