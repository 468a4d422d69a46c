import GeminiDB.Util.Buffer

/-!
# Connections (`link.h`, `link.cpp`)

A connection owns an input and an output buffer. What the socket answers to
`::read` and `::write` is given by a list, one entry for each call; a list that
has run out stands for `EWOULDBLOCK`. Each append of a packet has its own outcomes
of `realloc`, by the size asked for; one append asks for no size twice.
-/

namespace GeminiDB

open Memory Decimal Scanner

/-- A `Bytes`: it points into the memory of an input buffer. -/
structure BytesRef where
  data : Int
  size : Int
  deriving DecidableEq

def BytesRef.deref (mem : Int → UInt8) (r : BytesRef) : Bytes := slice mem r.data r.size.toNat

inductive ReadResult where
  | bytes (bs : Bytes)
  | intr
  | wouldBlock
  | error
  deriving DecidableEq

inductive WriteResult where
  | accepted (len : ℕ)
  | intr
  | wouldBlock
  | error

structure Link where
  sock : Int
  noblock : Bool
  error : Bool
  recvData : List BytesRef
  input : Buffer
  output : Buffer

/-- The result of `recv`. Both `badFormat` and `noMemory` are its `NULL`. -/
inductive Recv where
  | vector (req : List BytesRef)
  | badFormat
  | noMemory

namespace Link

/-- `INIT_BUFFER_SIZE`. -/
def initBufferSize : Int := 8

def new (sock : Int) : Link where
  sock := sock
  noblock := false
  error := false
  recvData := []
  input := Buffer.new initBufferSize
  output := Buffer.new initBufferSize

def markError (link : Link) : Link := { link with error := true }

/-! ## Socket input and output -/

/-- The loop of `read`; `ret` bytes have been read. -/
def readLoop (noblock : Bool) : List ReadResult → Int → Buffer → Int × Buffer
  | [], ret, input => (ret, input)
  | result :: results, ret, input =>
      let want := input.space
      if want > 0 then
        match result with
        | .intr => readLoop noblock results ret input
        | .wouldBlock => (ret, input)
        | .error => (-1, input)
        | .bytes bs =>
            let got := bs.take want.toNat
            if got.length = 0 then (0, input)
            else
              let filled := { input with mem := store input.mem input.slot got }
              let ret := int32 (ret + got.length)
              let input := filled.incr got.length
              if noblock then readLoop noblock results ret input else (ret, input)
      else (ret, input)

def read (alloc : Int → Bool) (results : List ReadResult) (link : Link) : Int × Link :=
  let grown := if link.input.total = initBufferSize then (link.input.grow alloc).2 else link.input
  let r := readLoop link.noblock results 0 grown.nice
  (r.1, { link with input := r.2 })

/-- `proc_request` on a readable link, which also goes on the ready list. -/
def procRequest (alloc : Int → Bool) (results : List ReadResult) (link : Link) : Link :=
  if link.error then link
  else
    let r := link.read alloc results
    if r.1 ≤ 0 then r.2.markError else r.2

/-- The loop of `write`; `ret` bytes have been written. -/
def writeLoop (noblock : Bool) : List WriteResult → Int → Buffer → Int × Buffer
  | [], ret, output => (ret, output.nice)
  | result :: results, ret, output =>
      let want := output.size
      if want > 0 then
        match result with
        | .intr => writeLoop noblock results ret output
        | .wouldBlock => (ret, output.nice)
        | .error => (-1, output)
        | .accepted n =>
            let len := min n want.toNat
            if len = 0 then (ret, output.nice)
            else
              let ret := int32 (ret + len)
              let output := output.decr len
              if noblock then writeLoop noblock results ret output else (ret, output.nice)
      else (ret, output.nice)

def write (results : List WriteResult) (link : Link) : Int × Link :=
  let r := writeLoop link.noblock results 0 link.output
  (r.1, { link with output := r.2 })

/-! ## Packets -/

/-- Append the records and the end of a packet; whether every append succeeded. -/
def appendPacket : (allocs : ℕ → Int → Bool) → List Bytes → Buffer → Bool × Buffer
  | allocs, [], output =>
      let r := output.append (allocs 0) [10]
      (r.1 ≠ -1, r.2)
  | allocs, s :: resp, output =>
      let r := output.appendRecord (allocs 0) s
      let q := appendPacket (fun i ↦ allocs (i + 1)) resp r.2
      (r.1 ≠ -1 && q.1, q.2)

/-- `send` returns 0 also when an append has failed. -/
def send (allocs : ℕ → Int → Bool) (resp : List Bytes) (link : Link) : Int × Link :=
  if resp.isEmpty then (0, link)
  else (0, { link with output := (appendPacket allocs resp link.output).2 })

/-- `send(const std::vector<Bytes> &)`, which those of one to five strings are
cases of. -/
def sendBytes (allocs : ℕ → Int → Bool) (resp : List Bytes) (link : Link) : Int × Link :=
  (0, { link with output := (appendPacket allocs resp link.output).2 })

/-- Whether the growth that `send` needs succeeds. The size it asks for with a
record is 17 more than the record's and has to be an `int`. -/
def sendGrows (allocs : ℕ → Int → Bool) (resp : List Bytes) (link : Link) : Bool :=
  (appendPacket allocs resp link.output).1 && decide (∀ s ∈ resp, s.length + 17 < 2 ^ 31)

/-- Skip the empty lines at `head`, of `size` bytes. -/
def skipLines (mem : Int → UInt8) : Int → ℕ → Int × ℕ
  | head, 0 => (head, 0)
  | head, size + 1 =>
      if mem head = 10 ∨ mem head = 13 then skipLines mem (head + 1) size else (head, size + 1)

/-- The length of the separator at `head`: `none` when more bytes are needed,
`some none` for a bad one. -/
def separatorAt (mem : Int → UInt8) (head size : Int) : Option (Option Int) :=
  if size ≥ 1 ∧ mem head = 10 then some (some 1)
  else if size ≥ 2 ∧ mem head = 13 ∧ mem (head + 1) = 10 then some (some 2)
  else if size ≥ 2 then some none
  else none

/-- How one round of the second loop of `recv` ends. The last two carry the body
that the round has already put into `recv_data`. -/
inductive RecordParse where
  | packetEnd (headLen : Int)
  | record (body : BytesRef) (len separator : Int)
  | badFormat (body : Option BytesRef)
  | notReady (body : Option BytesRef)

/-- One round of the second loop of `recv`, with `size` bytes from `head` on. -/
def parseRecord (mem : Int → UInt8) (head size : Int) : RecordParse :=
  match find mem 10 head size.toNat with
  | none => .notReady none
  | some newline =>
      let body := newline + 1
      let headLen := int32 (body - head)
      if headLen = 1 ∨ (headLen = 2 ∧ mem head = 13) then .packetEnd headLen
      else if mem head < 48 ∨ mem head > 57 then .badFormat none
      else if headLen > 20 - 1 then .badFormat none
      else
        let bodyLen := atoi (slice mem head (headLen - 1).toNat)
        if bodyLen < 0 then .badFormat none
        else
          let len := int32 (headLen + bodyLen)
          let size := int32 (size - len)
          if size < 0 then .notReady none
          else match separatorAt mem (head + len) size with
            | none => .notReady (some ⟨body, bodyLen⟩)
            | some none => .badFormat (some ⟨body, bodyLen⟩)
            | some (some n) => .record ⟨body, bodyLen⟩ len n

/-- How the second loop of `recv` ends. -/
inductive Parse where
  | packetEnd (recvData : List BytesRef) (parsed : Int)
  | badFormat (recvData : List BytesRef)
  | notReady (recvData : List BytesRef)

/-- The second loop of `recv`. -/
def parseRecords (mem : Int → UInt8) :
    ℕ → (head size parsed : Int) → (recvData : List BytesRef) → Parse
  | 0, _, _, _, recvData => .notReady recvData
  | k + 1, head, size, parsed, recvData =>
      if size > 0 then
        match parseRecord mem head size with
        | .packetEnd headLen => .packetEnd recvData (int32 (parsed + headLen))
        | .badFormat body => .badFormat (recvData ++ body.toList)
        | .notReady body => .notReady (recvData ++ body.toList)
        | .record body len n =>
            let recvData := recvData ++ [body]
            let parsed := int32 (int32 (parsed + len) + n)
            if parsed > maxPacketSize then .badFormat recvData
            else
              parseRecords mem k (head + len + n) (int32 (int32 (size - len) - n)) parsed recvData
      else .notReady recvData

/-- Both loops of `recv`. -/
def parse (input : Buffer) : Parse :=
  let start := skipLines input.mem input.data input.size.toNat
  parseRecords input.mem start.2 start.1 start.2 (start.1 - input.data) []

/-- Room for more input; whether there was memory for it. -/
def makeRoom (alloc : Int → Bool) (input : Buffer) : Bool × Buffer :=
  if input.space = 0 then
    let input := input.nice
    if input.space = 0 then
      let r := input.grow alloc
      (r.1 ≠ -1, r.2)
    else (true, input)
  else (true, input)

def recv (alloc : Int → Bool) (link : Link) : Recv × Link :=
  if link.input.size = 0 then (.vector [], { link with recvData := [] })
  else match parse link.input with
    | .packetEnd recvData parsed =>
        (.vector recvData, { link with recvData := recvData, input := link.input.decr parsed })
    | .badFormat recvData => (.badFormat, { link with recvData := recvData })
    | .notReady recvData =>
        let r := makeRoom alloc link.input
        if r.1 then (.vector [], { link with recvData := [], input := r.2 })
        else (.noMemory, { link with recvData := recvData, input := r.2 })

/-! ## Output -/

theorem appendPacket_content (allocs : ℕ → Int → Bool) {resp : List Bytes} {output : Buffer}
    (h : output.Wf) (hresp : ∀ s ∈ resp, s.length + 17 < 2 ^ 31) :
    (appendPacket allocs resp output).2.Wf ∧ ((appendPacket allocs resp output).1 = true →
      (appendPacket allocs resp output).2.content = output.content ++ encodePacket resp) := by
  induction resp generalizing output allocs with
  | nil =>
      obtain ⟨hwf, hcontent⟩ := h.append (allocs 0) (show ([10] : Bytes).length < 2 ^ 31 by decide)
      simp only [appendPacket, ne_eq, decide_not, Bool.not_eq_true', decide_eq_false_iff_not]
      refine ⟨hwf, fun hgrow ↦ ?_⟩
      rw [hcontent, if_neg hgrow]
      rfl
  | cons s resp ih =>
      obtain ⟨hwf, hcontent⟩ := h.appendRecord (allocs 0) (hresp s List.mem_cons_self)
      obtain ⟨hwf', hcontent'⟩ :=
        ih (fun i ↦ allocs (i + 1)) hwf fun r hr ↦ hresp r (List.mem_cons_of_mem s hr)
      simp only [appendPacket, ne_eq, Bool.and_eq_true, decide_not, Bool.not_eq_true',
        decide_eq_false_iff_not]
      refine ⟨hwf', fun hgrow ↦ ?_⟩
      rw [hcontent' hgrow.2, hcontent, if_neg hgrow.1]
      simp [encodePacket]

/-- Bytes that are pending stay in front, also when an append fails. -/
theorem appendPacket_keeps (allocs : ℕ → Int → Bool) {resp : List Bytes} {output : Buffer}
    (h : output.Wf) (hresp : ∀ s ∈ resp, s.length + 17 < 2 ^ 31) :
    output.content <+: (appendPacket allocs resp output).2.content := by
  have hkept {b b' : Buffer} {failed : Prop} [Decidable failed] {more : Bytes}
      (hcontent : b'.content = if failed then b.content else b.content ++ more) :
      b.content <+: b'.content := by
    rw [hcontent]
    split
    · exact List.prefix_rfl
    · exact List.prefix_append ..
  induction resp generalizing output allocs with
  | nil =>
      have hcontent := (h.append (allocs 0) (show ([10] : Bytes).length < 2 ^ 31 by decide)).2
      rw [appendPacket]
      generalize output.append (allocs 0) [10] = r at hcontent ⊢
      exact hkept hcontent
  | cons s resp ih =>
      obtain ⟨hwf, hcontent⟩ := h.appendRecord (allocs 0) (hresp s List.mem_cons_self)
      have hrest := ih (fun i ↦ allocs (i + 1)) hwf fun r hr ↦ hresp r (List.mem_cons_of_mem s hr)
      rw [appendPacket]
      generalize output.appendRecord (allocs 0) s = r at hcontent hrest ⊢
      exact (hkept hcontent).trans hrest

theorem sendBytes_content (allocs : ℕ → Int → Bool) {resp : List Bytes} {link : Link}
    (h : link.output.Wf) (hgrow : link.sendGrows allocs resp = true) :
    (link.sendBytes allocs resp).2.output.Wf ∧
      (link.sendBytes allocs resp).2.output.content = link.output.content ++ encodePacket resp := by
  rw [sendGrows, Bool.and_eq_true] at hgrow
  obtain ⟨hwf, hcontent⟩ := appendPacket_content allocs h (of_decide_eq_true hgrow.2)
  exact ⟨hwf, hcontent hgrow.1⟩

@[simp] theorem send_nil (allocs : ℕ → Int → Bool) (link : Link) :
    link.send allocs [] = (0, link) :=
  rfl

theorem send_of_ne (allocs : ℕ → Int → Bool) {resp : List Bytes} (hne : resp ≠ []) (link : Link) :
    link.send allocs resp = link.sendBytes allocs resp := by
  rw [send, if_neg (by simpa using hne), sendBytes]

theorem send_keeps (allocs : ℕ → Int → Bool) {resp : List Bytes} {link : Link} (h : link.output.Wf)
    (hresp : ∀ s ∈ resp, s.length + 17 < 2 ^ 31) :
    (link.send allocs resp).2.output.Wf ∧
      link.output.content <+: (link.send allocs resp).2.output.content := by
  rw [send]
  split
  · exact ⟨h, List.prefix_rfl⟩
  · exact ⟨(appendPacket_content allocs h hresp).1, appendPacket_keeps allocs h hresp⟩

theorem send_content (allocs : ℕ → Int → Bool) {resp : List Bytes} {link : Link}
    (h : link.output.Wf) (hne : resp ≠ []) (hgrow : link.sendGrows allocs resp = true) :
    (link.send allocs resp).2.output.Wf ∧
      (link.send allocs resp).2.output.content = link.output.content ++ encodePacket resp := by
  rw [send_of_ne allocs hne]
  exact sendBytes_content allocs h hgrow

end Link

end GeminiDB
