import RangeQuery.Proofs.Text.Lines

/-!
The letters of a line. A line of plain columns and numbers can be read back from its letters: what
ends a word, a row of tests or an operand shows at the next one or two letters.
-/

namespace RangeQuery

/-- The parts of a path, each with a dot before it. -/
def pathChars (path : List String) : List Char := path.flatMap fun part => '.' :: part.toList

/-- What is written for a test for NULL. -/
def testChars (negated : Bool) : List Char :=
  (if negated then " IS NOT NULL" else " IS NULL").toList

/-- How a column or a number is written. -/
def Atom.chars : Atom → List Char
  | .column range path => range.toList ++ pathChars path
  | .number digits => digits.toList

mutual

/-- How an operand is written. -/
def Operand.chars : Operand → List Char
  | .bare atom tests => atom.chars ++ tests.flatMap testChars
  | .enclosed negated line tests =>
    (if negated then "NOT (" else "(").toList ++ (line.chars ++ ')' :: tests.flatMap testChars)

/-- How a line is written. -/
def Line.chars : Line → List Char
  | .last operand => operand.chars
  | .more operand op rest => operand.chars ++ ' ' :: (op.symbol.toList ++ ' ' :: rest.chars)

end

mutual

/-- All columns and numbers of an operand are plain. -/
def Operand.isPlain : Operand → Bool
  | .bare atom _ => atom.isPlain
  | .enclosed _ line _ => line.isPlain

/-- All columns and numbers of a line are plain. -/
def Line.isPlain : Line → Bool
  | .last operand => operand.isPlain
  | .more operand _ rest => operand.isPlain && rest.isPlain

end

/-! ## How lines are built -/

namespace Operand

@[simp] theorem chars_withTest (operand : Operand) (negated : Bool) :
    (operand.withTest negated).chars = operand.chars ++ testChars negated := by
  cases operand <;> simp [withTest, chars]

@[simp] theorem isPlain_withTest (operand : Operand) (negated : Bool) :
    (operand.withTest negated).isPlain = operand.isPlain := by
  cases operand <;> simp only [withTest, isPlain]

end Operand

namespace Line

theorem chars_withTest (line : Line) (negated : Bool) :
    (line.withTest negated).chars = line.chars ++ testChars negated := by
  induction line using Line.rec (motive_1 := fun _ => True) with
  | bare | enclosed => trivial
  | last operand => simp [withTest, chars]
  | more operand op rest _ ih => simp [withTest, chars, ih]

theorem isPlain_withTest (line : Line) (negated : Bool) :
    (line.withTest negated).isPlain = line.isPlain := by
  induction line using Line.rec (motive_1 := fun _ => True) with
  | bare | enclosed => trivial
  | last operand => simp [withTest, isPlain]
  | more operand op rest _ ih => simp [withTest, isPlain, ih]

theorem chars_join (op : BinaryOp) (a b : Line) :
    (a.join op b).chars = a.chars ++ ' ' :: (op.symbol.toList ++ ' ' :: b.chars) := by
  induction a using Line.rec (motive_1 := fun _ => True) with
  | bare | enclosed => trivial
  | last operand => simp [join, chars]
  | more operand inner rest _ ih => simp [join, chars, ih]

theorem isPlain_join (op : BinaryOp) (a b : Line) :
    (a.join op b).isPlain = (a.isPlain && b.isPlain) := by
  induction a using Line.rec (motive_1 := fun _ => True) with
  | bare | enclosed => trivial
  | last operand => simp [join, isPlain]
  | more operand inner rest _ ih => simp [join, isPlain, ih, Bool.and_assoc]

theorem chars_within (parens : Bool) (line : Line) :
    (within parens line).chars = if parens then '(' :: (line.chars ++ [')']) else line.chars := by
  cases parens <;> simp [chars, Operand.chars]

theorem isPlain_within (parens : Bool) (line : Line) :
    (within parens line).isPlain = line.isPlain := by
  cases parens <;> simp [isPlain, Operand.isPlain]

end Line

/-- Writing a phrase keeps its columns and numbers. -/
theorem Phrase.isPlain_line (p : Phrase) : p.line.isPlain = p.isPlain := by
  induction p with
  | leaf atom => simp only [line, Line.isPlain, Operand.isPlain, isPlain]
  | not operand ih => simp only [line, Line.isPlain, Operand.isPlain, isPlain, ih]
  | nullCheck operand negated ih => simp only [line, Line.isPlain_withTest, isPlain, ih]
  | binary op left right ihLeft ihRight =>
    simp only [line, Line.isPlain_join, Line.isPlain_within, isPlain, ihLeft, ihRight]

/-! ## What ends a part -/

/-- Two texts that begin with letters of a kind up to one of another have the same beginning. -/
theorem append_inj_of_stops {kind : Char → Bool} {a b s t : List Char}
    (first : ∀ c ∈ a, kind c = true) (first' : ∀ c ∈ b, kind c = true)
    (stop : ∀ c ∈ s.head?, kind c = false) (stop' : ∀ c ∈ t.head?, kind c = false)
    (same : a ++ s = b ++ t) : a = b ∧ s = t := by
  induction a generalizing b with
  | nil =>
    cases b with
    | nil => exact ⟨rfl, same⟩
    | cons d b => simp_all
  | cons c a ih =>
    cases b with
    | nil =>
      obtain rfl : c :: (a ++ s) = t := same
      have stops : kind c = false := stop' c rfl
      simp [first c] at stops
    | cons d b =>
      obtain ⟨rfl, rest⟩ := List.cons.inj same
      obtain ⟨rfl, after⟩ := ih (fun c mem => first c (.tail _ mem))
        (fun c mem => first' c (.tail _ mem)) rest
      exact ⟨rfl, after⟩

/-- The letters of columns and numbers. -/
def isSolid (c : Char) : Bool := !(c == ' ' || c == '(' || c == ')')

/-- What follows a line: nothing, or the parenthesis that closes it. -/
def EndsLine (rest : List Char) : Prop := ∀ c ∈ rest.head?, c = ')'

/-- What follows an operand: the end of its line, or an operator. -/
def EndsOperand (rest : List Char) : Prop :=
  EndsLine rest ∨
    ∃ (op : BinaryOp) (text : List Char), rest = ' ' :: (op.symbol.toList ++ ' ' :: text)

theorem endsLine_close (rest : List Char) : EndsLine (')' :: rest) := by
  intro c first
  simpa using first.symm

theorem endsOperand_symbol (op : BinaryOp) (rest : List Char) :
    EndsOperand (' ' :: (op.symbol.toList ++ ' ' :: rest)) := .inr ⟨op, rest, rfl⟩

theorem EndsLine.ne_blank {s t : List Char} (ends : EndsLine s) : s ≠ ' ' :: t := by
  rintro rfl
  simpa using ends ' ' rfl

theorem symbol_append_inj {op op' : BinaryOp} {s t : List Char}
    (same : op.symbol.toList ++ ' ' :: s = op'.symbol.toList ++ ' ' :: t) : op = op' ∧ s = t := by
  have solid (op : BinaryOp) : ∀ c ∈ op.symbol.toList, (c != ' ') = true := by
    cases op <;> simp [BinaryOp.symbol]
  obtain ⟨symbol, rest⟩ := append_inj_of_stops (solid op) (solid op') (by simp) (by simp) same
  refine ⟨?_, (List.cons.inj rest).2⟩
  revert symbol
  cases op <;> cases op' <;> simp [BinaryOp.symbol]

theorem testChars_append_inj {negated negated' : Bool} {s t : List Char}
    (same : testChars negated ++ s = testChars negated' ++ t) : negated = negated' ∧ s = t := by
  cases negated <;> cases negated' <;> simp_all [testChars]

namespace EndsOperand

variable {s t : List Char} {tests tests' : List Bool}

/-- An operator does not look like a test for NULL. -/
theorem ne_testChars (ends : EndsOperand s) (negated : Bool) (t : List Char) :
    s ≠ testChars negated ++ t := by
  rcases ends with ends | ⟨op, rest, rfl⟩
  · cases negated <;> exact ends.ne_blank
  · cases op <;> cases negated <;> simp [BinaryOp.symbol, testChars]

/-- A row of tests for NULL ends where an operand does. -/
theorem tests_inj (ends : EndsOperand s) (ends' : EndsOperand t)
    (same : tests.flatMap testChars ++ s = tests'.flatMap testChars ++ t) :
    tests = tests' ∧ s = t := by
  induction tests generalizing tests' with
  | nil =>
    cases tests' with
    | nil => exact ⟨rfl, same⟩
    | cons negated tests' =>
      simp only [List.flatMap_cons, List.append_assoc] at same
      exact absurd same (ends.ne_testChars _ _)
  | cons negated tests ih =>
    cases tests' with
    | nil =>
      simp only [List.flatMap_cons, List.append_assoc] at same
      exact absurd same.symm (ends'.ne_testChars _ _)
    | cons negated' tests' =>
      simp only [List.flatMap_cons, List.append_assoc] at same
      obtain ⟨rfl, rest⟩ := testChars_append_inj same
      obtain ⟨rfl, after⟩ := ih rest
      exact ⟨rfl, after⟩

/-- A column or a number goes on no further than the operand. -/
theorem stops (ends : EndsOperand s) (tests : List Bool) :
    ∀ c ∈ (tests.flatMap testChars ++ s).head?, isSolid c = false := by
  intro c first
  have mark : c = ' ' ∨ c = ')' := by
    match tests with
    | [] =>
      rcases ends with ends | ⟨op, rest, rfl⟩
      · exact .inr (ends c first)
      · exact .inl (by simpa using first.symm)
    | negated :: tests => cases negated <;> exact .inl (by simpa [testChars] using first.symm)
  rcases mark with rfl | rfl <;> rfl

/-- Behind the words of an operand no parenthesis is opened. -/
theorem tests_ne_open (ends : EndsOperand s) (tests : List Bool) (t : List Char) :
    tests.flatMap testChars ++ s ≠ ' ' :: '(' :: t := by
  match tests with
  | [] =>
    rcases ends with ends | ⟨op, rest, rfl⟩
    · exact ends.ne_blank
    · cases op <;> simp [BinaryOp.symbol]
  | negated :: tests => cases negated <;> simp [testChars]

end EndsOperand

/-! ## Columns and numbers -/

theorem isSolid_of_isWord {text : String} (word : isWord text = true) {c : Char}
    (mem : c ∈ text.toList) : isSolid c = true ∧ c ≠ '.' := by
  simp only [isWord, Bool.and_eq_true, List.all_eq_true] at word
  have plain := word.2 c mem
  simp only [isSolid]
  grind

theorem isSolid_of_isNumeral {text : String} (numeral : isNumeral text = true) {c : Char}
    (mem : c ∈ text.toList) : isSolid c = true ∧ c ≠ '.' := by
  simp only [isNumeral, Bool.and_eq_true, List.all_eq_true] at numeral
  have digit := numeral.2 c mem
  have other {d : Char} (no : d.isDigit = false) : c ≠ d := by
    rintro rfl
    simp [digit] at no
  have blank := @other ' ' rfl
  have opening := @other '(' rfl
  have closing := @other ')' rfl
  exact ⟨by simp [isSolid, blank, opening, closing], other rfl⟩

/-- The first word of a column can be read back. -/
theorem word_append_inj {word word' : String} {path path' : List String}
    (plain : isWord word = true) (plain' : isWord word' = true)
    (same : word.toList ++ pathChars path = word'.toList ++ pathChars path') :
    word = word' ∧ pathChars path = pathChars path' := by
  have dotless {text : String} (plain : isWord text = true) :
      ∀ c ∈ text.toList, (c != '.') = true := fun c mem => by
    simpa using (isSolid_of_isWord plain mem).2
  have dot (path : List String) : ∀ c ∈ (pathChars path).head?, (c != '.') = false := by
    intro c first
    cases path with
    | nil => simp [pathChars] at first
    | cons part path => simpa [pathChars] using first.symm
  obtain ⟨first, rest⟩ :=
    append_inj_of_stops (dotless plain) (dotless plain') (dot path) (dot path') same
  exact ⟨String.toList_inj.mp first, rest⟩

/-- A path of words can be read back. -/
theorem pathChars_inj {path path' : List String} (words : path.all isWord = true)
    (words' : path'.all isWord = true) (same : pathChars path = pathChars path') :
    path = path' := by
  induction path generalizing path' with
  | nil => cases path' <;> simp_all [pathChars]
  | cons part path ih =>
    cases path' with
    | nil => simp [pathChars] at same
    | cons part' path' =>
      simp only [List.all_cons, Bool.and_eq_true] at words words'
      simp only [pathChars, List.flatMap_cons, List.cons_append, List.cons.injEq, true_and] at same
      obtain ⟨rfl, rest⟩ := word_append_inj words.1 words'.1 same
      rw [ih words.2 words'.2 rest]

namespace Atom

variable {atom atom' : Atom}

theorem isSolid_chars (plain : atom.isPlain = true) : ∀ c ∈ atom.chars, isSolid c = true := by
  intro c mem
  cases atom with
  | number digits => exact (isSolid_of_isNumeral plain mem).1
  | column range path =>
    simp only [isPlain, Bool.and_eq_true, List.all_eq_true] at plain
    rcases List.mem_append.mp mem with mem | mem
    · exact (isSolid_of_isWord plain.1.1 mem).1
    · obtain ⟨part, on, mem⟩ := List.mem_flatMap.mp mem
      rcases List.mem_cons.mp mem with rfl | mem
      · rfl
      · exact (isSolid_of_isWord (plain.2 part on) mem).1

theorem chars_ne_nil (plain : atom.isPlain = true) : atom.chars ≠ [] := by
  cases atom <;> simp_all [isPlain, isWord, isNumeral, chars]

/-- Plain columns and numbers can be read back. -/
theorem chars_inj (plain : atom.isPlain = true) (plain' : atom'.isPlain = true)
    (same : atom.chars = atom'.chars) : atom = atom' := by
  -- A number has no dot, and the range of a column is none.
  have apart {digits range : String} {path : List String} (numeral : isNumeral digits = true)
      (plain : (column range path).isPlain = true) :
      digits.toList ≠ range.toList ++ pathChars path := by
    intro same
    simp only [isPlain, Bool.and_eq_true, Bool.not_eq_true'] at plain
    cases path with
    | nil =>
      obtain rfl : digits = range := String.toList_inj.mp (by simpa [pathChars] using same)
      simp [numeral] at plain
    | cons part path =>
      have dot : '.' ∈ digits.toList := by simp [same, pathChars]
      exact (isSolid_of_isNumeral numeral dot).2 rfl
  cases atom with
  | number digits =>
    cases atom' with
    | number digits' => rw [String.toList_inj.mp same]
    | column range' path' => exact absurd same (apart plain plain')
  | column range path =>
    cases atom' with
    | number digits' => exact absurd same.symm (apart plain' plain)
    | column range' path' =>
      simp only [isPlain, Bool.and_eq_true] at plain plain'
      obtain ⟨rfl, rest⟩ := word_append_inj plain.1.1 plain'.1.1 same
      rw [pathChars_inj plain.2 plain'.2 rest]

end Atom

/-! ## Reading back -/

/-- How the parenthesis of an operand is opened. -/
theorem opening_append (negated : Bool) (rest : List Char) :
    (if negated then "NOT (" else "(").toList ++ rest =
      (if negated then ['N', 'O', 'T'] else []) ++
        ((if negated then [' '] else []) ++ '(' :: rest) := by
  cases negated <;> rfl

/-- A column or a number is not taken for a part in parentheses. -/
theorem EndsOperand.atom_ne_opening {s t : List Char} {atom : Atom} (ends : EndsOperand s)
    (plain : atom.isPlain = true) (tests : List Bool) (negated : Bool) :
    atom.chars ++ (tests.flatMap testChars ++ s) ≠
      (if negated then "NOT (" else "(").toList ++ t := by
  intro same
  rw [opening_append] at same
  obtain ⟨word, rest⟩ := append_inj_of_stops (Atom.isSolid_chars plain)
    (by cases negated <;> simp [isSolid]) (ends.stops tests)
    (by cases negated <;> simp [isSolid]) same
  cases negated with
  | false => exact Atom.chars_ne_nil plain word
  | true => exact ends.tests_ne_open tests t rest

mutual

/-- A plain operand can be read back from its letters and what follows it. -/
theorem Operand.chars_append_inj {a b : Operand} {s t : List Char} (plain : a.isPlain = true)
    (plain' : b.isPlain = true) (ends : EndsOperand s) (ends' : EndsOperand t)
    (same : a.chars ++ s = b.chars ++ t) : a = b ∧ s = t := by
  match a, b with
  | .bare atom tests, .bare atom' tests' =>
    simp only [Operand.chars, List.append_assoc] at same
    simp only [Operand.isPlain] at plain plain'
    obtain ⟨word, rest⟩ := append_inj_of_stops (Atom.isSolid_chars plain)
      (Atom.isSolid_chars plain') (ends.stops tests) (ends'.stops tests') same
    obtain ⟨rfl, after⟩ := ends.tests_inj ends' rest
    exact ⟨by rw [Atom.chars_inj plain plain' word], after⟩
  | .bare atom tests, .enclosed negated line tests' =>
    simp only [Operand.chars, List.append_assoc] at same
    exact absurd same (ends.atom_ne_opening plain tests negated)
  | .enclosed negated line tests, .bare atom tests' =>
    simp only [Operand.chars, List.append_assoc] at same
    exact absurd same.symm (ends'.atom_ne_opening plain' tests' negated)
  | .enclosed negated line tests, .enclosed negated' line' tests' =>
    simp only [Operand.chars, List.append_assoc] at same
    obtain rfl : negated = negated' := by
      cases negated <;> cases negated' <;> simp_all
    have inner := List.append_cancel_left same
    simp only [List.cons_append] at inner
    simp only [Operand.isPlain] at plain plain'
    obtain ⟨rfl, rest⟩ :=
      Line.chars_append_inj plain plain' (endsLine_close _) (endsLine_close _) inner
    obtain ⟨rfl, after⟩ := ends.tests_inj ends' (List.cons.inj rest).2
    exact ⟨rfl, after⟩

/-- A plain line can be read back from its letters and what follows it. -/
theorem Line.chars_append_inj {a b : Line} {s t : List Char} (plain : a.isPlain = true)
    (plain' : b.isPlain = true) (ends : EndsLine s) (ends' : EndsLine t)
    (same : a.chars ++ s = b.chars ++ t) : a = b ∧ s = t := by
  match a, b with
  | .last operand, .last operand' =>
    simp only [Line.chars] at same
    simp only [Line.isPlain] at plain plain'
    obtain ⟨rfl, after⟩ := Operand.chars_append_inj plain plain' (.inl ends) (.inl ends') same
    exact ⟨rfl, after⟩
  | .last operand, .more operand' op rest =>
    simp only [Line.chars, List.append_assoc, List.cons_append] at same
    simp only [Line.isPlain, Bool.and_eq_true] at plain plain'
    obtain ⟨-, after⟩ := Operand.chars_append_inj plain plain'.1 (.inl ends)
      (endsOperand_symbol op _) same
    exact absurd after ends.ne_blank
  | .more operand op rest, .last operand' =>
    simp only [Line.chars, List.append_assoc, List.cons_append] at same
    simp only [Line.isPlain, Bool.and_eq_true] at plain plain'
    obtain ⟨-, after⟩ := Operand.chars_append_inj plain.1 plain' (endsOperand_symbol op _)
      (.inl ends') same
    exact absurd after.symm ends'.ne_blank
  | .more operand op rest, .more operand' op' rest' =>
    simp only [Line.chars, List.append_assoc, List.cons_append] at same
    simp only [Line.isPlain, Bool.and_eq_true] at plain plain'
    obtain ⟨rfl, after⟩ := Operand.chars_append_inj plain.1 plain'.1 (endsOperand_symbol op _)
      (endsOperand_symbol op' _) same
    obtain ⟨rfl, further⟩ := symbol_append_inj (List.cons.inj after).2
    obtain ⟨rfl, ended⟩ := Line.chars_append_inj plain.2 plain'.2 ends ends' further
    exact ⟨rfl, ended⟩

end

/-- Plain lines with the same letters are the same. -/
theorem Line.chars_inj {a b : Line} (plain : a.isPlain = true) (plain' : b.isPlain = true) :
    a.chars = b.chars ↔ a = b := by
  constructor
  · intro same
    exact (Line.chars_append_inj plain plain' (s := []) (t := []) (by simp [EndsLine])
      (by simp [EndsLine]) (by simpa using same)).1
  · rintro rfl
    rfl

end RangeQuery
