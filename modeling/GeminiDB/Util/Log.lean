import GeminiDB.Lib.Machine
import GeminiDB.Util.Strings

/-!
# Log rotation (`log.cpp`)

The logger's stream is one of the process's streams, which may have been closed.
Rotation closes it before the file is renamed and opened again, and either of
the two may fail. Writing to a stream that is not open is undefined.
-/

namespace GeminiDB

open Machine

inductive Stream where
  | stdin
  | stdout
  | stderr
  | file (id : ℕ)
  deriving DecidableEq

structure Logger where
  fp : Option Stream
  filename : Bytes
  level : Int
  rotateSize : UInt64
  wCurr : UInt64
  wTotal : UInt64
  /-- The open streams of the process. -/
  streams : List Stream

/-- A call of `log_write`: its level, what `sprintf` returns for the date and `vsnprintf`
for the text, and how `rename` and `fopen` end should the log be rotated after it. -/
structure Line where
  level : Int
  date : Int
  text : Int
  renamed : Bool
  opened : Option Stream

namespace Logger

def new : Logger := ⟨some .stdout, [], 4, 0, 0, 0, [.stdin, .stdout, .stderr]⟩

/-- `open(FILE *, int, bool)`. -/
def openStream (fp : Option Stream) (level : Int) (l : Logger) : Int × Logger :=
  (0, { l with fp := fp, level := level })

/-- `open(const char *, int, bool, uint64_t)`; `opened` is the answer of `fopen` and `size`
that of `fstat`. -/
def openFile (filename : Bytes) (level : Int) (rotateSize : UInt64) (opened : Option Stream)
    (size : Option UInt64) (l : Logger) : Int × Logger :=
  if filename.length > 4096 - 20 then (-1, l)
  else
    let l := { l with level := level, rotateSize := rotateSize, filename := filename }
    if filename = ascii "stdout" then l.openStream (some .stdout) level
    else if filename = ascii "stderr" then l.openStream (some .stderr) level
    else
      match opened with
      | none => (-1, l)
      | some f =>
          let l := { l with streams := f :: l.streams }
          match size with
          | none => (-1, l)
          | some n => { l with wCurr := n }.openStream (some f) level

/-- The logger's stream may be written to. -/
def IsOpen (l : Logger) : Prop := ∃ f, l.fp = some f ∧ f ∈ l.streams

instance (l : Logger) : Decidable l.IsOpen :=
  match h : l.fp with
  | none => .isFalse fun ⟨_, hf, _⟩ ↦ by simp [h] at hf
  | some f =>
      if hmem : f ∈ l.streams then .isTrue ⟨f, h, hmem⟩
      else .isFalse fun ⟨g, hg, hin⟩ ↦ hmem (by rw [h] at hg; cases hg; exact hin)

/-- `fclose(fp)`. -/
def fclose (l : Logger) : Logger :=
  { l with streams := l.streams.filter fun f ↦ some f ≠ l.fp }

def rotate (renamed : Bool) (opened : Option Stream) (l : Logger) : Logger :=
  let l := l.fclose
  if renamed = false then l
  else
    match opened with
    | none => { l with fp := none }
    | some f => { l with fp := some f, streams := f :: l.streams, wCurr := 0 }

/-- The line is not dropped before it gets to `fwrite`. -/
def Writes (l : Logger) (line : Line) : Prop :=
  line.level ≤ l.level ∧ 0 ≤ line.date ∧ 0 ≤ line.text

instance (l : Logger) (line : Line) : Decidable (l.Writes line) :=
  inferInstanceAs (Decidable (_ ∧ _ ∧ _))

/-- The length of the line that is written: date, level name, text as far as it fits, newline. -/
def lineLength (line : Line) : Int :=
  let space := 4096 - (line.date + 8) - 10
  line.date + 8 + (if line.text > space then space else line.text) + 1

/-- The logger after `fwrite`. -/
def counted (l : Logger) (line : Line) : Logger :=
  { l with
    wCurr := l.wCurr + UInt64.ofInt (lineLength line)
    wTotal := l.wTotal + UInt64.ofInt (lineLength line) }

/-- The size that calls for rotation is exceeded. -/
def Full (l : Logger) : Prop := l.rotateSize > 0 ∧ l.wCurr > l.rotateSize

instance (l : Logger) : Decidable l.Full := inferInstanceAs (Decidable (_ ∧ _))

/-- `logv`; `none` when `fwrite` is called on a stream that is not open. -/
def logv (l : Logger) (line : Line) : Option (Int × Logger) :=
  if l.level < line.level then some (0, l)
  else if line.date < 0 then some (-1, l)
  else if line.text < 0 then some (-1, l)
  else if l.IsOpen then
    let l := l.counted line
    if l.Full then some (lineLength line, l.rotate line.renamed line.opened)
    else some (lineLength line, l)
  else none

/-- One call of `log_write` in a sequence. -/
def step (l : Logger) (line : Line) : Option Logger := (l.logv line).map Prod.snd

/-- The line is followed by a rotation in which `rename` or `fopen` fails. -/
def FailsRotation (l : Logger) (line : Line) : Prop :=
  l.Writes line ∧ (l.counted line).Full ∧ (line.renamed = false ∨ line.opened = none)

instance (l : Logger) (line : Line) : Decidable (l.FailsRotation line) :=
  inferInstanceAs (Decidable (_ ∧ _ ∧ _))

/-! ## Opening -/

theorem isOpen_new : new.IsOpen := by decide

/-- However opening the log ends, a stream is open. -/
theorem isOpen_openFile (filename : Bytes) (level : Int) (rotateSize : UInt64)
    (opened : Option Stream) (size : Option UInt64) :
    (new.openFile filename level rotateSize opened size).2.IsOpen := by
  have hout : Stream.stdout ∈ new.streams := by decide
  have herr : Stream.stderr ∈ new.streams := by decide
  unfold openFile
  split_ifs
  · exact isOpen_new
  · exact ⟨.stdout, rfl, hout⟩
  · exact ⟨.stderr, rfl, herr⟩
  · cases opened with
    | none => exact ⟨.stdout, rfl, hout⟩
    | some f =>
        cases size with
        | none => exact ⟨.stdout, rfl, List.mem_cons_of_mem f hout⟩
        | some n => exact ⟨f, rfl, List.mem_cons_self⟩

/-! ## One line -/

variable {l : Logger} {line : Line}

theorem step_of_not_writes (h : ¬l.Writes line) : l.step line = some l := by
  unfold step logv
  split_ifs with hlevel hdate htext
  · rfl
  · rfl
  · rfl
  · exact absurd ⟨not_lt.mp hlevel, not_lt.mp hdate, not_lt.mp htext⟩ h
  · exact absurd ⟨not_lt.mp hlevel, not_lt.mp hdate, not_lt.mp htext⟩ h

theorem step_of_not_isOpen (hwrites : l.Writes line) (h : ¬l.IsOpen) : l.step line = none := by
  rw [step, logv, if_neg (not_lt.mpr hwrites.1), if_neg (not_lt.mpr hwrites.2.1),
    if_neg (not_lt.mpr hwrites.2.2), if_neg h]
  rfl

theorem not_isOpen_rotate {renamed : Bool} {opened : Option Stream}
    (h : renamed = false ∨ opened = none) : ¬(l.rotate renamed opened).IsOpen := by
  rintro ⟨f, hf, hmem⟩
  unfold rotate at hf hmem
  by_cases hrename : renamed = false
  · rw [if_pos hrename] at hf hmem
    have hne := (List.mem_filter.mp hmem).2
    exact absurd hf.symm (of_decide_eq_true hne)
  · obtain rfl := h.resolve_left hrename
    rw [if_neg hrename] at hf
    cases hf

theorem isOpen_rotate {renamed : Bool} {opened : Option Stream}
    (h : ¬(renamed = false ∨ opened = none)) : (l.rotate renamed opened).IsOpen := by
  obtain ⟨hrename, hopened⟩ := not_or.mp h
  obtain ⟨f, rfl⟩ := Option.ne_none_iff_exists'.mp hopened
  rw [rotate, if_neg hrename]
  exact ⟨f, rfl, List.mem_cons_self⟩

/-- A line written to an open stream leaves one behind, unless rotation fails. -/
theorem step_of_isOpen (hwrites : l.Writes line) (h : l.IsOpen) :
    ∃ l', l.step line = some l' ∧ l'.level = l.level ∧
      (l'.IsOpen ↔ ¬l.FailsRotation line) := by
  have hlogv : l.step line = if (l.counted line).Full then
      some ((l.counted line).rotate line.renamed line.opened) else some (l.counted line) := by
    rw [step, logv, if_neg (not_lt.mpr hwrites.1), if_neg (not_lt.mpr hwrites.2.1),
      if_neg (not_lt.mpr hwrites.2.2), if_pos h]
    simp only
    split <;> rfl
  by_cases hfull : (l.counted line).Full
  · refine ⟨_, hlogv.trans (if_pos hfull), ?_, ?_⟩
    · unfold rotate
      split
      · rfl
      · split <;> rfl
    · by_cases hfails : line.renamed = false ∨ line.opened = none
      · exact iff_of_false (not_isOpen_rotate hfails) (not_not.mpr ⟨hwrites, hfull, hfails⟩)
      · exact iff_of_true (isOpen_rotate hfails) fun hrotation ↦ hfails hrotation.2.2
  · exact ⟨_, hlogv.trans (if_neg hfull), rfl,
      iff_of_true h fun hrotation ↦ hfull hrotation.2.1⟩

/-! ## Sequences of lines -/

theorem writes_congr {l' : Logger} (h : l'.level = l.level) : l'.Writes line ↔ l.Writes line := by
  rw [Writes, Writes, h]

theorem level_step {l' : Logger} (h : l.step line = some l') : l'.level = l.level := by
  by_cases hwrites : l.Writes line
  · by_cases hopen : l.IsOpen
    · obtain ⟨r, hstep, hlevel, -⟩ := step_of_isOpen hwrites hopen
      cases hstep.symm.trans h
      exact hlevel
    · rw [step_of_not_isOpen hwrites hopen] at h
      cases h
  · rw [step_of_not_writes hwrites] at h
    cases h
    rfl

theorem level_run {l' : Logger} {lines : List Line} (h : run step l lines = some l') :
    l'.level = l.level :=
  (reachable_of_run h).invariant (P := fun r ↦ r.level = l.level) rfl
    fun _ _ _ hr hstep ↦ (level_step hstep).trans hr

/-- Without an open stream only dropped lines are harmless. -/
theorem run_of_not_isOpen (h : ¬l.IsOpen) (lines : List Line) :
    (run step l lines).isSome ↔ ∀ line ∈ lines, ¬l.Writes line := by
  induction lines with
  | nil => simp [run]
  | cons line lines ih =>
      by_cases hwrites : l.Writes line
      · rw [run, step_of_not_isOpen hwrites h]
        simp [hwrites]
      · rw [run, step_of_not_writes hwrites, Option.bind_some, ih]
        simp [hwrites]

/-- No line is written after a rotation that failed. -/
def QuietAfterFailure (l : Logger) (lines : List Line) : Prop :=
  ∀ pre a post, lines = pre ++ a :: post → ∀ s, run step l pre = some s →
    s.FailsRotation a → ∀ b ∈ post, ¬s.Writes b

theorem quiet_cons {l' : Logger} (hstep : l.step line = some l')
    (hgood : ¬l.FailsRotation line) (lines : List Line) :
    QuietAfterFailure l (line :: lines) ↔ QuietAfterFailure l' lines := by
  have hrun (pre : List Line) : run step l (line :: pre) = run step l' pre := by
    rw [run, hstep, Option.bind_some]
  constructor
  · intro hquiet pre a post heq s hs
    exact hquiet (line :: pre) a post (by rw [heq]; rfl) s ((hrun pre).trans hs)
  · intro hquiet pre a post heq s hs hfails
    cases pre with
    | nil =>
        obtain ⟨rfl, rfl⟩ := List.cons.inj heq
        have hsl : l = s := by simpa [run] using hs
        exact absurd (hsl ▸ hfails) hgood
    | cons first pre =>
        obtain ⟨rfl, htail⟩ := List.cons.inj heq
        exact hquiet pre a post htail s ((hrun pre).symm.trans hs) hfails

/-- Every write goes to an open stream just when nothing is written after a rotation in
which `rename` or `fopen` failed. -/
theorem log_stream_open_iff (h : l.IsOpen) (lines : List Line) :
    (run step l lines).isSome ↔ QuietAfterFailure l lines := by
  induction lines generalizing l with
  | nil =>
      apply iff_of_true rfl
      intro pre a post heq
      exact absurd heq.symm (by simp)
  | cons line lines ih =>
      by_cases hwrites : l.Writes line
      · obtain ⟨l', hstep, hlevel, hopen⟩ := step_of_isOpen hwrites h
        have hrun : run step l (line :: lines) = run step l' lines := by
          rw [run, hstep, Option.bind_some]
        by_cases hfails : l.FailsRotation line
        · have hclosed : ¬l'.IsOpen := fun hl' ↦ hopen.mp hl' hfails
          rw [hrun, run_of_not_isOpen hclosed]
          simp only [writes_congr hlevel]
          constructor
          · intro hnone pre a post heq s hs _ b hb
            have hmem : b ∈ lines := by
              cases pre with
              | nil => exact (List.cons.inj heq).2 ▸ hb
              | cons first pre => simp [(List.cons.inj heq).2, hb]
            rw [writes_congr (level_run hs)]
            exact hnone b hmem
          · intro hquiet
            exact hquiet [] line lines rfl l rfl hfails
        · rw [hrun, ih (hopen.mpr hfails), quiet_cons hstep hfails]
      · have hstep := step_of_not_writes hwrites
        rw [run, hstep, Option.bind_some, ih h, quiet_cons hstep fun hfails ↦ hwrites hfails.1]

/-- A log file of at most one byte, rotated after each of two lines. -/
theorem log_stream_open_rotated :
    let l := (new.openFile (ascii "log") 4 1 (some (.file 0)) (some 0)).2
    let lines : List Line := [⟨1, 24, 5, true, some (.file 1)⟩, ⟨1, 24, 5, true, some (.file 0)⟩]
    (run step l lines).isSome ∧ QuietAfterFailure l lines := by
  intro l lines
  have hrun : (run step l lines).isSome := by decide +kernel
  exact ⟨hrun, (log_stream_open_iff (isOpen_openFile _ _ _ _ _) lines).mp hrun⟩

/-- With the output on `stdout` there is no file to rename, and the second line is written
to the closed stream. -/
theorem log_stream_closed :
    ¬∀ l : Logger, l.IsOpen → ∀ lines : List Line, (run step l lines).isSome := by
  intro hall
  have hrun := hall (new.openFile (ascii "stdout") 4 1 none none).2 (isOpen_openFile _ _ _ _ _)
    [⟨1, 24, 5, false, none⟩, ⟨1, 24, 5, false, none⟩]
  exact absurd hrun (by decide +kernel)

end Logger

end GeminiDB
