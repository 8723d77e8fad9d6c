import Mathlib.Data.List.Infix
import PathAudit.Cases.Format
import PathAudit.Proofs.Text.Trim

/-! Cases written in their format and read back. A case is written as its header lines, its source and the
findings expected about it, each block closed by its mark; what stands between cases is free but for
the label that opens a case. The cases of such a text are those that were written, each with the number of
its first line. -/

namespace PathAudit.Case

def headerLine (label : String) (value : List Char) : List Char :=
  label.toList ++ ' ' :: value

/-- The line of the fixtures of a case, which may be left out where there are none and `full` does not
hold. -/
def fixturesLines (c : Case) (full : Bool) : List (List Char) :=
  if full ∨ c.fixtures ≠ [] then
    [headerLine "# fixtures:" (", ".toList.intercalate (c.fixtures.map String.toList))]
  else []

def severityLines (c : Case) : List (List Char) :=
  c.severity.toList.map fun s => headerLine "# severity:" s.toList

def strictLines (c : Case) (full : Bool) : List (List Char) :=
  if c.strictKinds then [headerLine "# strict:" "true".toList]
  else if full then [headerLine "# strict:" "false".toList]
  else []

def headerLines (c : Case) (full : Bool) : List (List Char) :=
  c.fixturesLines full ++ (c.severityLines ++ c.strictLines full)

/-- The lines of the source of a case. An empty source is a blank line, or left out. -/
def inputLines (c : Case) (full : Bool) : List (List Char) :=
  if full ∨ c.input ≠ "" then c.input.toList.splitOn '\n' else []

def writtenLines (c : Case) (full : Bool) : List (List Char) :=
  headerLine "# test:" c.name.toList :: (c.headerLines full ++ "---".toList ::
    (c.inputLines full ++ "---".toList :: (c.expected.map String.toList ++ ["===".toList])))

/-- A case to be written, the lines that come before it, and whether what can be left out is written. -/
structure Page where
  gap : List (List Char)
  case : Case
  full : Bool

def Page.lines (page : Page) : List (List Char) :=
  page.gap ++ page.case.writtenLines page.full

def Page.caseAt (page : Page) (n : Nat) : Case :=
  { page.case with line := n + page.gap.length }

/-- The text of some pages with some lines after them. The lines are joined by newlines; with an empty last line
the text ends with a newline. -/
def textOf (pages : List Page) (after : List (List Char)) : String :=
  String.ofList (['\n'].intercalate (pages.flatMap Page.lines ++ after))

/-- Holds of a text on one line that neither begins nor ends with a blank. -/
def Trimmed (s : String) : Prop :=
  Text.trim s.toList = s.toList ∧ '\n' ∉ s.toList

/-- Holds of a text that can be named in a list parted by commas. -/
def Listable (s : String) : Prop :=
  Trimmed s ∧ s ≠ "" ∧ ',' ∉ s.toList

/-- Holds of a line that can stand between cases. -/
def IsGap (line : List Char) : Prop :=
  '\n' ∉ line ∧ ¬"# test:".toList <+: Text.trim line

/-- Holds of a case that can be written. -/
structure Writable (c : Case) : Prop where
  name : Trimmed c.name
  fixtures : ∀ f ∈ c.fixtures, Listable f
  severity : ∀ s ∈ c.severity, Trimmed s
  input : ∀ line ∈ c.input.toList.splitOn '\n',
    Text.trim line ≠ "---".toList ∧ line.getLast? ≠ some '\r'
  expected : ∀ e ∈ c.expected, Trimmed e ∧ e ≠ "" ∧ e ≠ "==="

structure Page.Writable (page : Page) : Prop where
  case : page.case.Writable
  gap : ∀ line ∈ page.gap, IsGap line

instance (s : String) : Decidable (Trimmed s) :=
  inferInstanceAs (Decidable (_ ∧ _))

instance (s : String) : Decidable (Listable s) :=
  inferInstanceAs (Decidable (_ ∧ _))

instance (line : List Char) : Decidable (IsGap line) :=
  inferInstanceAs (Decidable (_ ∧ _))

variable {c : Case} {full : Bool} {label other : String} {value : List Char} {mark : String}
  {block rest gap : List Line} {m : List Char} {k : Nat} {page : Page}

/-! Header lines. -/

theorem trim_headerLine (hlabel : Text.trim label.toList = label.toList) (hne : label.toList ≠ [])
    (hvalue : Text.trim value = value) :
    ∃ tail, Text.trim (headerLine label value) = label.toList ++ tail ∧ Text.trim tail = value := by
  by_cases hempty : value = []
  · subst hempty
    refine ⟨[], ?_, rfl⟩
    rw [headerLine, Text.trim_append_blank (by decide), hlabel, List.append_nil]
  · refine ⟨' ' :: value, Text.trim_between hlabel hvalue hne hempty [' '], ?_⟩
    rw [Text.trim_cons_blank (by decide), hvalue]

theorem labelled?_headerLine (hlabel : Text.trim label.toList = label.toList) (hne : label.toList ≠ [])
    (hvalue : Text.trim value = value) : labelled? label (headerLine label value) = some value := by
  obtain ⟨tail, htrim, htail⟩ := trim_headerLine hlabel hne hvalue
  rw [labelled?, htrim, if_pos (by simp), ← String.length_toList, List.drop_left, htail]

theorem labelled?_headerLine_other (hlabel : Text.trim label.toList = label.toList)
    (hne : label.toList ≠ []) (hvalue : Text.trim value = value)
    (hother : ∀ tail, other.toList.isPrefixOf (label.toList ++ tail) = false) :
    labelled? other (headerLine label value) = none := by
  obtain ⟨tail, htrim, -⟩ := trim_headerLine hlabel hne hvalue
  rw [labelled?, htrim, hother, if_neg (by decide)]

theorem trim_list {names : List String} (hne : names ≠ []) (h : ∀ f ∈ names, Listable f) :
    let list := ", ".toList.intercalate (names.map String.toList)
    Text.trim list = list ∧ list ≠ [] := by
  intro list
  induction names with
  | nil => exact absurd rfl hne
  | cons f names ih =>
    obtain ⟨⟨hf, hfne, -⟩, hnames⟩ := List.forall_mem_cons.1 h
    have hfne : f.toList ≠ [] := by simpa using hfne
    cases names with
    | nil =>
      rw [show list = f.toList from List.intercalate_singleton]
      exact ⟨hf.1, hfne⟩
    | cons g names =>
      obtain ⟨hmore, hmorene⟩ := ih (List.cons_ne_nil _ _) hnames
      have hlist : list = f.toList ++ (", ".toList ++
          ", ".toList.intercalate ((g :: names).map String.toList)) := by
        rw [← List.append_assoc]
        exact List.intercalate_cons_cons
      rw [hlist]
      exact ⟨Text.trim_between hf.1 hmore hfne hmorene _, List.append_ne_nil_of_left_ne_nil hfne _⟩

theorem newline_not_mem_list {names : List String} (h : ∀ f ∈ names, Listable f) :
    '\n' ∉ ", ".toList.intercalate (names.map String.toList) := by
  cases names with
  | nil => exact List.not_mem_nil
  | cons f names =>
    obtain ⟨⟨⟨-, hf⟩, -⟩, hnames⟩ := List.forall_mem_cons.1 h
    rw [List.map_cons, intercalate_cons_flatMap, List.flatMap_map, List.mem_append, List.mem_flatMap]
    rintro (hmem | ⟨g, hg, hmem⟩)
    · exact hf hmem
    · exact (hnames g hg).1.2 (by simpa using hmem)

theorem fixtureNames_list {names : List String} (h : ∀ f ∈ names, Listable f) :
    fixtureNames (", ".toList.intercalate (names.map String.toList)) = names := by
  cases names with
  | nil => rfl
  | cons f names =>
    -- The blank after a comma belongs to the part behind it.
    let parts := f.toList :: names.map fun g => ' ' :: g.toList
    have hlist : ", ".toList.intercalate ((f :: names).map String.toList) = [','].intercalate parts := by
      rw [List.map_cons, intercalate_cons_flatMap, intercalate_cons_flatMap, List.flatMap_map,
        List.flatMap_map]
      rfl
    have hcomma : ∀ part ∈ parts, ',' ∉ part := by
      obtain ⟨⟨-, -, hf⟩, hnames⟩ := List.forall_mem_cons.1 h
      refine List.forall_mem_cons.2 ⟨hf, List.forall_mem_map.2 fun g hg => ?_⟩
      simpa using (hnames g hg).2.2
    have htrim : parts.map Text.trim = (f :: names).map String.toList := by
      obtain ⟨⟨hf, -⟩, hnames⟩ := List.forall_mem_cons.1 h
      rw [List.map_cons, List.map_cons, hf.1, List.map_map]
      congr 1
      exact List.map_congr_left fun g hg => (Text.trim_cons_blank (by decide) _).trans (hnames g hg).1.1
    have hnonempty : ((f :: names).map String.toList).filter (!·.isEmpty) = (f :: names).map String.toList :=
      List.filter_eq_self.2 (List.forall_mem_map.2 fun g hg => by simpa using (h g hg).2.1)
    rw [hlist, fixtureNames, List.splitOn_intercalate ',' hcomma (List.cons_ne_nil _ _), htrim, hnonempty,
      List.map_map]
    simp

theorem header_fixtures (c : Case) (hvalue : Text.trim value = value) (k : Nat) :
    c.header (headerLine "# fixtures:" value, k) = { c with fixtures := fixtureNames value } := by
  have hself : labelled? "# fixtures:" (headerLine "# fixtures:" value) = some value :=
    labelled?_headerLine (by decide) (by decide) hvalue
  simp only [header, hself]

theorem header_severity (c : Case) (hvalue : Text.trim value = value) (k : Nat) :
    c.header (headerLine "# severity:" value, k) = { c with severity := some (String.ofList value) } := by
  have hother : labelled? "# fixtures:" (headerLine "# severity:" value) = none :=
    labelled?_headerLine_other (by decide) (by decide) hvalue fun _ => rfl
  have hself : labelled? "# severity:" (headerLine "# severity:" value) = some value :=
    labelled?_headerLine (by decide) (by decide) hvalue
  simp only [header, hother, hself]

theorem header_strict (c : Case) (hvalue : Text.trim value = value) (k : Nat) :
    c.header (headerLine "# strict:" value, k) = { c with strictKinds := value == "true".toList } := by
  have hfixtures : labelled? "# fixtures:" (headerLine "# strict:" value) = none :=
    labelled?_headerLine_other (by decide) (by decide) hvalue fun _ => rfl
  have hseverity : labelled? "# severity:" (headerLine "# strict:" value) = none :=
    labelled?_headerLine_other (by decide) (by decide) hvalue fun _ => rfl
  have hself : labelled? "# strict:" (headerLine "# strict:" value) = some value :=
    labelled?_headerLine (by decide) (by decide) hvalue
  simp only [header, hfixtures, hseverity, hself]

variable {d : Case}

theorem foldl_fixturesLines (hc : c.Writable) (full : Bool) (k : Nat) (hd : d.fixtures = []) :
    ((c.fixturesLines full).zipIdx k).foldl header d = { d with fixtures := c.fixtures } := by
  have hlist : Text.trim (", ".toList.intercalate (c.fixtures.map String.toList)) =
      ", ".toList.intercalate (c.fixtures.map String.toList) := by
    by_cases hnone : c.fixtures = []
    · rw [hnone]
      rfl
    · exact (trim_list hnone hc.fixtures).1
  unfold fixturesLines
  split
  · rw [List.zipIdx_singleton, List.foldl_cons, List.foldl_nil, header_fixtures d hlist,
      fixtureNames_list hc.fixtures]
  · next h =>
    have hnone : c.fixtures = [] := Decidable.not_not.1 fun hne => h (.inr hne)
    rw [hnone, ← hd]
    rfl

theorem foldl_severityLines (hc : c.Writable) (k : Nat) (hd : d.severity = none) :
    (c.severityLines.zipIdx k).foldl header d = { d with severity := c.severity } := by
  unfold severityLines
  cases hseverity : c.severity with
  | none =>
    obtain ⟨name, line, fixtures, severity, strictKinds, input, expected⟩ := d
    cases hd
    rfl
  | some s =>
    rw [Option.toList_some, List.map_singleton, List.zipIdx_singleton, List.foldl_cons, List.foldl_nil,
      header_severity d (hc.severity s hseverity).1, String.ofList_toList]

theorem foldl_strictLines (c : Case) (full : Bool) (k : Nat) (hd : d.strictKinds = false) :
    ((c.strictLines full).zipIdx k).foldl header d = { d with strictKinds := c.strictKinds } := by
  unfold strictLines
  split
  · next h =>
    rw [List.zipIdx_singleton, List.foldl_cons, List.foldl_nil, header_strict d (by decide), h]
    rfl
  · next h =>
    have h : c.strictKinds = false := by simpa using h
    split
    · rw [List.zipIdx_singleton, List.foldl_cons, List.foldl_nil, header_strict d (by decide), h]
      rfl
    · rw [h, ← hd]
      rfl

/-- The header lines of a case tell its fixtures, its severity and its strictness. -/
theorem foldl_headerLines (hc : c.Writable) (full : Bool) (k line : Nat) (input : String)
    (expected : List String) :
    ((c.headerLines full).zipIdx k).foldl header ⟨c.name, line, [], none, false, input, expected⟩ =
      ⟨c.name, line, c.fixtures, c.severity, c.strictKinds, input, expected⟩ := by
  rw [headerLines, List.zipIdx_append, List.zipIdx_append, List.foldl_append, List.foldl_append,
    foldl_fixturesLines hc full k rfl, foldl_severityLines hc _ rfl, foldl_strictLines c full _ rfl]

/-! Blocks. -/

theorem before_append (hblock : ∀ l ∈ block, Text.trim l.1 ≠ mark.toList)
    (hm : Text.trim m = mark.toList) : before mark (block ++ (m, k) :: rest) = block := by
  rw [before, List.takeWhile_append_of_pos (by simpa using hblock), List.takeWhile_cons_of_neg (by simp [hm]),
    List.append_nil]

theorem after_append (hblock : ∀ l ∈ block, Text.trim l.1 ≠ mark.toList)
    (hm : Text.trim m = mark.toList) : after mark (block ++ (m, k) :: rest) = rest := by
  rw [after, before_append hblock hm, List.drop_append, List.drop_of_length_le (Nat.le_succ _)]
  simp

theorem ofLines_gap (hgap : ∀ l ∈ gap, labelled? "# test:" l.1 = none) :
    ofLines (gap ++ rest) = ofLines rest := by
  induction gap with
  | nil => rfl
  | cons l gap ih =>
    obtain ⟨hl, hgap⟩ := List.forall_mem_cons.1 hgap
    rw [List.cons_append, ofLines, hl]
    exact ih hgap

theorem labelled?_eq_none {line : List Char} (h : IsGap line) : labelled? "# test:" line = none := by
  rw [labelled?, if_neg]
  rw [List.isPrefixOf_iff_prefix]
  exact h.2

def laterLabels : List String := ["# fixtures:", "# severity:", "# strict:"]

theorem laterLabels_spec : ∀ label ∈ laterLabels,
    Text.trim label.toList = label.toList ∧ label.toList.head? = some '#' ∧ '\n' ∉ label.toList := by
  decide

/-- What holds of every header line with a trimmed value on one line holds of the header lines of a case. -/
theorem forall_mem_headerLines {p : List Char → Prop} (hc : c.Writable)
    (h : ∀ label ∈ laterLabels, ∀ value,
      Text.trim value = value → '\n' ∉ value → p (headerLine label value)) :
    ∀ line ∈ c.headerLines full, p line := by
  intro line hline
  rcases List.mem_append.1 hline with hline | hline
  · rw [fixturesLines] at hline
    split at hline
    · rw [List.mem_singleton] at hline
      subst hline
      by_cases hnone : c.fixtures = []
      · rw [hnone]
        exact h _ (by decide) [] rfl List.not_mem_nil
      · exact h _ (by decide) _ (trim_list hnone hc.fixtures).1 (newline_not_mem_list hc.fixtures)
    · exact absurd hline List.not_mem_nil
  · rcases List.mem_append.1 hline with hline | hline
    · obtain ⟨s, hs, rfl⟩ := List.mem_map.1 hline
      obtain ⟨htrim, hbreak⟩ := hc.severity s (by simpa using hs)
      exact h _ (by decide) _ htrim hbreak
    · rw [strictLines] at hline
      split at hline
      · rw [List.mem_singleton] at hline
        subst hline
        exact h _ (by decide) _ (by decide) (by decide)
      · split at hline
        · rw [List.mem_singleton] at hline
          subst hline
          exact h _ (by decide) _ (by decide) (by decide)
        · exact absurd hline List.not_mem_nil

/-- The case of three closed blocks. -/
theorem ofBlocks_append {name m₁ m₂ m₃ : List Char} {n k₁ k₂ k₃ : Nat} {hs is es : List Line}
    (hhs : ∀ l ∈ hs, Text.trim l.1 ≠ "---".toList) (hm₁ : Text.trim m₁ = "---".toList)
    (his : ∀ l ∈ is, Text.trim l.1 ≠ "---".toList) (hm₂ : Text.trim m₂ = "---".toList)
    (hes : ∀ l ∈ es, Text.trim l.1 ≠ "===".toList) (hm₃ : Text.trim m₃ = "===".toList) :
    ofBlocks name n (hs ++ (m₁, k₁) :: (is ++ (m₂, k₂) :: (es ++ (m₃, k₃) :: rest))) =
      hs.foldl header
        { name := String.ofList name
          line := n
          fixtures := []
          severity := none
          strictKinds := false
          input := String.ofList (['\n'].intercalate (is.map Prod.fst))
          expected := ((es.map fun l => Text.trim l.1).filter (!·.isEmpty)).map String.ofList } := by
  simp only [ofBlocks, before_append hhs hm₁, after_append hhs hm₁, before_append his hm₂,
    after_append his hm₂, before_append hes hm₃]

theorem intercalate_inputLines (c : Case) (full : Bool) :
    String.ofList (['\n'].intercalate (c.inputLines full)) = c.input := by
  unfold inputLines
  split
  · rw [List.intercalate_splitOn, String.ofList_toList]
  · next h =>
    rw [show c.input = "" from Decidable.not_not.1 fun hne => h (.inr hne)]
    rfl

theorem trim_expected (hc : c.Writable) (k : Nat) :
    ((((c.expected.map String.toList).zipIdx k).map fun l => Text.trim l.1).filter (!·.isEmpty)).map
      String.ofList = c.expected := by
  have htrim : ((c.expected.map String.toList).zipIdx k).map (fun l => Text.trim l.1) =
      c.expected.map String.toList := by
    change ((c.expected.map String.toList).zipIdx k).map (Text.trim ∘ Prod.fst) = _
    rw [← List.map_map, List.zipIdx_map_fst, List.map_map]
    exact List.map_congr_left fun e he => (hc.expected e he).1.1
  have hnonempty : (c.expected.map String.toList).filter (!·.isEmpty) = c.expected.map String.toList :=
    List.filter_eq_self.2 (List.forall_mem_map.2 fun e he => by simpa using (hc.expected e he).2.1)
  rw [htrim, hnonempty, List.map_map]
  simp

theorem trim_headerLines_ne (hc : c.Writable) (full : Bool) :
    ∀ line ∈ c.headerLines full, Text.trim line ≠ "---".toList := by
  refine forall_mem_headerLines hc fun label hlabel value hvalue _ heq => ?_
  obtain ⟨hlabel, hhead, -⟩ := laterLabels_spec label hlabel
  obtain ⟨start, hstart⟩ := List.head?_eq_some_iff.1 hhead
  obtain ⟨tail, htrim, -⟩ := trim_headerLine hlabel (hstart ▸ List.cons_ne_nil _ _) hvalue
  rw [htrim, hstart] at heq
  exact absurd (List.cons.inj heq).1 (by decide)

theorem trim_inputLines_ne (hc : c.Writable) (full : Bool) :
    ∀ line ∈ c.inputLines full, Text.trim line ≠ "---".toList := by
  intro line hline
  unfold inputLines at hline
  split at hline
  · exact (hc.input line hline).1
  · exact absurd hline List.not_mem_nil

theorem trim_expected_ne (hc : c.Writable) :
    ∀ line ∈ c.expected.map String.toList, Text.trim line ≠ "===".toList := by
  refine List.forall_mem_map.2 fun e he heq => ?_
  obtain ⟨⟨htrim, -⟩, -, hne⟩ := hc.expected e he
  exact hne (String.toList_injective (htrim ▸ heq))

/-- A written case is read as it was written, with the number of its first line. -/
theorem ofLines_writtenLines (hc : c.Writable) (full : Bool) (n : Nat) (rest : List Line) :
    ofLines ((c.writtenLines full).zipIdx n ++ rest) = { c with line := n } :: ofLines rest := by
  have hopened : labelled? "# test:" (headerLine "# test:" c.name.toList) = some c.name.toList :=
    labelled?_headerLine (by decide) (by decide) hc.name.1
  have hnumbered {lines : List (List Char)} {mark : String}
      (h : ∀ line ∈ lines, Text.trim line ≠ mark.toList) (k : Nat) :
      ∀ l ∈ lines.zipIdx k, Text.trim l.1 ≠ mark.toList :=
    fun l hl => h l.1 (List.fst_mem_of_mem_zipIdx hl)
  have hheaders := hnumbered (trim_headerLines_ne hc full)
  have hinput := hnumbered (trim_inputLines_ne hc full)
  have hexpected := hnumbered (trim_expected_ne hc)
  have hmark : Text.trim "---".toList = "---".toList := by decide
  have hend : Text.trim "===".toList = "===".toList := by decide
  simp only [writtenLines, List.zipIdx_append, List.zipIdx_cons, List.append_assoc,
    List.cons_append, List.zipIdx_nil, List.nil_append]
  rw [ofLines, hopened]
  simp only
  rw [ofBlocks_append (hheaders _) hmark (hinput _) hmark (hexpected _) hend,
    after_append (hheaders _) hmark, after_append (hinput _) hmark, after_append (hexpected _) hend,
    String.ofList_toList, foldl_headerLines hc, List.zipIdx_map_fst, intercalate_inputLines,
    trim_expected hc]

/-! The lines of a written case. -/

/-- Holds of a line that a text with newlines holds as it is. -/
def IsWhole (line : List Char) : Prop :=
  '\n' ∉ line ∧ line.getLast? ≠ some '\r'

theorem isWhole_of_trimmed {s : String} (h : Trimmed s) : IsWhole s.toList :=
  ⟨h.2, Text.getLast?_ne_return_of_trim h.1⟩

theorem isWhole_headerLine (hlabel : '\n' ∉ label.toList) (hvalue : Text.trim value = value)
    (hbreak : '\n' ∉ value) : IsWhole (headerLine label value) := by
  refine ⟨by simp [headerLine, hlabel, hbreak], ?_⟩
  rcases List.eq_nil_or_concat value with rfl | ⟨start, last, rfl⟩
  · simp [headerLine]
  · have hlast := Text.getLast?_ne_return_of_trim hvalue
    rw [headerLine, List.concat_eq_append, ← List.cons_append, ← List.append_assoc, List.getLast?_concat]
    rwa [List.concat_eq_append, List.getLast?_concat] at hlast

theorem isWhole_writtenLines (hc : c.Writable) : ∀ line ∈ c.writtenLines full, IsWhole line := by
  have hmark : IsWhole "---".toList := ⟨by decide, by decide⟩
  have hend : IsWhole "===".toList := ⟨by decide, by decide⟩
  have hname : IsWhole (headerLine "# test:" c.name.toList) :=
    isWhole_headerLine (by decide) hc.name.1 hc.name.2
  have hheaders : ∀ line ∈ c.headerLines full, IsWhole line :=
    forall_mem_headerLines hc fun label hlabel _ hvalue hbreak =>
      isWhole_headerLine (laterLabels_spec label hlabel).2.2 hvalue hbreak
  have hinput : ∀ line ∈ c.inputLines full, IsWhole line := by
    intro line hline
    unfold inputLines at hline
    split at hline
    · exact ⟨Text.not_mem_of_mem_splitOn hline, (hc.input line hline).2⟩
    · exact absurd hline List.not_mem_nil
  have hexpected : ∀ line ∈ c.expected.map String.toList, IsWhole line :=
    List.forall_mem_map.2 fun e he => isWhole_of_trimmed (hc.expected e he).1
  simp only [writtenLines, List.forall_mem_cons, List.forall_mem_append]
  exact ⟨hname, hheaders, hmark, hinput, hmark, hexpected, hend, nofun⟩

/-! Texts of pages. -/

theorem ofLines_pages (pages : List Page) (hpages : ∀ page ∈ pages, page.Writable) (n : Nat)
    (rest : List Line) :
    ofLines ((pages.flatMap Page.lines).zipIdx n ++ rest) =
      (pages.mapIdx fun i page => page.caseAt (n + ((pages.take i).flatMap Page.lines).length)) ++
      ofLines rest := by
  induction pages generalizing n with
  | nil => rfl
  | cons page pages ih =>
    obtain ⟨⟨hc, hgap⟩, hpages⟩ := List.forall_mem_cons.1 hpages
    have hclosed : ∀ l ∈ page.gap.zipIdx n, labelled? "# test:" l.1 = none :=
      fun l hl => labelled?_eq_none (hgap l.1 (List.fst_mem_of_mem_zipIdx hl))
    rw [List.flatMap_cons, List.zipIdx_append, List.append_assoc, Page.lines, List.zipIdx_append,
      List.append_assoc, ofLines_gap hclosed, ofLines_writtenLines hc, ih hpages, List.mapIdx_cons,
      List.cons_append]
    simp only [List.take_succ_cons, List.flatMap_cons, List.length_append, Nat.add_assoc, Page.lines]
    rfl

def Page.received (page : Page) : Page :=
  { page with gap := page.gap.map Text.dropReturn }

theorem Page.Writable.received (h : page.Writable) : page.received.Writable := by
  refine ⟨h.case, List.forall_mem_map.2 fun line hline => ?_⟩
  obtain ⟨hbreak, hopens⟩ := h.gap line hline
  refine ⟨fun hmem => hbreak ?_, by rwa [Text.trim_dropReturn]⟩
  unfold Text.dropReturn at hmem
  split at hmem
  · exact List.mem_of_mem_dropLast hmem
  · exact hmem

theorem Page.lines_received (h : page.Writable) : page.received.lines = page.lines.map Text.dropReturn := by
  have hcase : (page.case.writtenLines page.full).map Text.dropReturn = page.case.writtenLines page.full :=
    (List.map_congr_left fun line hline =>
      Text.dropReturn_of_getLast? (isWhole_writtenLines h.case line hline).2).trans (List.map_id _)
  rw [Page.lines, Page.lines, List.map_append, hcase]
  rfl

theorem flatMap_received {pages : List Page} (hpages : ∀ page ∈ pages, page.Writable) :
    (pages.map Page.received).flatMap Page.lines = (pages.flatMap Page.lines).map Text.dropReturn := by
  rw [List.flatMap_map, List.map_flatMap]
  exact List.flatMap_congr fun page hpage => Page.lines_received (hpages page hpage)

theorem newline_not_mem_lines (h : page.Writable) : ∀ line ∈ page.lines, '\n' ∉ line :=
  List.forall_mem_append.2
    ⟨fun line hline => (h.gap line hline).1, fun line hline => (isWhole_writtenLines h.case line hline).1⟩

theorem getLast?_lines (page : Page) : page.lines.getLast? = some "===".toList := by
  simp [Page.lines, writtenLines, List.getLast?_append, List.getLast?_cons]

/-- The last line of some pages closes a case. -/
theorem getLast?_flatMap_lines (pages : List Page) :
    ∀ line ∈ (pages.flatMap Page.lines).getLast?, line = "===".toList := by
  rcases List.eq_nil_or_concat pages with rfl | ⟨pages, page, rfl⟩
  · nofun
  · intro line hline
    rw [List.concat_eq_append, List.flatMap_append, List.flatMap_singleton, List.getLast?_append,
      getLast?_lines, Option.some_or, Option.mem_some] at hline
    exact hline.symm

/-- Cases that are written in their format are read back in order, each with the number of its first line,
whatever lines that open no case stand before, between and after them. -/
theorem ofText_textOf (pages : List Page) (after : List (List Char))
    (hpages : ∀ page ∈ pages, page.Writable) (hafter : ∀ line ∈ after, IsGap line) :
    ofText (textOf pages after) =
      pages.mapIdx fun i page => page.caseAt (((pages.take i).flatMap Page.lines).length + 1) := by
  have hlines : ∀ line ∈ pages.flatMap Page.lines, '\n' ∉ line := by
    intro line hline
    obtain ⟨page, hpage, hline⟩ := List.mem_flatMap.1 hline
    exact newline_not_mem_lines (hpages page hpage) line hline
  have hlast : ∀ line ∈ (pages.flatMap Page.lines).getLast?, line ≠ [] ∧ line.getLast? ≠ some '\r' := by
    intro line hline
    rw [getLast?_flatMap_lines pages line hline]
    decide
  obtain ⟨rest, hread, hrest⟩ :=
    Text.exists_lines_intercalate_append hlines (fun line hline => (hafter line hline).1) hlast
  have hlength (i : Nat) : (((pages.map Page.received).take i).flatMap Page.lines).length =
      ((pages.take i).flatMap Page.lines).length := by
    rw [← List.map_take, flatMap_received fun page hpage => hpages page (List.mem_of_mem_take hpage),
      List.length_map]
  have hcaseAt (page : Page) (n : Nat) : page.received.caseAt n = page.caseAt n := by
    rw [Page.caseAt, Page.received, List.length_map]
    rfl
  have hwritable : ∀ page ∈ pages.map Page.received, page.Writable :=
    List.forall_mem_map.2 fun page hpage => (hpages page hpage).received
  have hclosed (k : Nat) : ∀ l ∈ rest.zipIdx k, labelled? "# test:" l.1 = none := by
    intro l hl
    obtain ⟨written, hwritten, htrim⟩ := hrest l.1 (List.fst_mem_of_mem_zipIdx hl)
    have hopens := labelled?_eq_none (hafter written hwritten)
    rwa [labelled?, htrim]
  have hnone (k : Nat) : ofLines (rest.zipIdx k) = [] := by
    rw [← List.append_nil (rest.zipIdx k), ofLines_gap (hclosed k), ofLines]
  rw [ofText, textOf, String.toList_ofList, hread, ← flatMap_received hpages, List.zipIdx_append,
    ofLines_pages _ hwritable, hnone, List.append_nil]
  refine List.ext_getElem? fun i => ?_
  simp only [List.getElem?_mapIdx, List.getElem?_map, Option.map_map, hlength, Nat.add_comm 1]
  congr 1
  exact funext fun page => hcaseAt page _

/-- A case with all its headers, whose source looks like the start and the end of a case, and after a blank line
one that leaves out what it can. -/
def fullAndBare : List Page :=
  [{ gap := ["Cases".toList]
     case :=
      { name := "missing"
        line := 0
        fixtures := ["assets/logo.png", "src/"]
        severity := some "warn"
        strictKinds := true
        input := "# test: none\n==="
        expected := ["warning: gone"] }
     full := true },
   { gap := [[]]
     case :=
      { name := "bare"
        line := 0
        fixtures := []
        severity := none
        strictKinds := false
        input := ""
        expected := [] }
     full := false }]

theorem full_and_bare_read_back :
    (∀ page ∈ fullAndBare, page.Writable) ∧ (∀ line ∈ [[]], IsGap line) ∧
    (ofText (textOf fullAndBare [[]])).map (fun c => (c.name, c.line, c.input)) =
      [("missing", 2, "# test: none\n==="), ("bare", 13, "")] := by
  have hpages : ∀ page ∈ fullAndBare, page.Writable := by
    simp only [fullAndBare, List.forall_mem_cons]
    exact ⟨⟨⟨by decide, by decide, by decide, by decide, by decide⟩, by decide⟩,
      ⟨⟨by decide, by decide, by decide, by decide, by decide⟩, by decide⟩, nofun⟩
  have hafter : ∀ line ∈ [[]], IsGap line := by decide
  refine ⟨hpages, hafter, ?_⟩
  rw [ofText_textOf fullAndBare [[]] hpages hafter]
  decide

end PathAudit.Case
