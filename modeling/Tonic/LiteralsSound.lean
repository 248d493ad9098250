import Tonic.Literals

/-!
## Which integer literals are accepted

The grammar is followed down to the digits, as the source takes the text apart, and compared with
what the source leaves to the parser of the big integers.
-/

namespace Tonic

open Numeral

variable {text digits rest body before after : List Char} {base radix : Nat} {c : Char}

/-! ### Blanks around the literal -/

theorem isWhitespace_iff (ascii : c.toNat < 128) : isWhitespace c = true ↔ Blank c := by
  unfold isWhitespace Blank
  simp only [Bool.or_eq_true, Bool.and_eq_true, decide_eq_true_eq]
  omega

theorem dropWhile_of_none {p : Char → Bool} (none : ∀ c ∈ text, p c = false) :
    text.dropWhile p = text := by
  cases text with
  | nil => rfl
  | cons c text => exact List.dropWhile_cons_of_neg (by simp [none c List.mem_cons_self])

theorem trim_of_blank (blank : ∀ c ∈ before ++ after, isWhitespace c = true)
    (filled : body ≠ []) (plain : ∀ c ∈ body, isWhitespace c = false) :
    trim (before ++ body ++ after) = body := by
  obtain ⟨first, last⟩ := List.forall_mem_append.mp blank
  have front : (body ++ after).dropWhile isWhitespace = body ++ after := by
    obtain ⟨c, tail, rfl⟩ := List.exists_cons_of_ne_nil filled
    exact List.dropWhile_cons_of_neg (by simp [plain c List.mem_cons_self])
  unfold trim
  rw [List.append_assoc, List.dropWhile_append_of_pos first, front, List.rdropWhile,
    List.reverse_append, List.dropWhile_append_of_pos (by simpa using last),
    dropWhile_of_none (by simpa using plain), List.reverse_reverse]

/-- A text is its trimmed part with blanks around it. -/
theorem trim_split (text : List Char) : ∃ before after, text = before ++ trim text ++ after ∧
    ∀ c ∈ before ++ after, isWhitespace c = true := by
  refine ⟨text.takeWhile isWhitespace, (text.dropWhile isWhitespace).rtakeWhile isWhitespace,
    ?_, ?_⟩
  · rw [trim, List.append_assoc, List.rdropWhile_append_rtakeWhile,
      List.takeWhile_append_dropWhile]
  · intro c mem
    rcases List.mem_append.mp mem with mem | mem
    · exact List.mem_takeWhile_imp mem
    · exact List.mem_rtakeWhile_imp mem

/-! ### Digits and prefixes -/

theorem no_digit_mark : digit radix '_' = none := by
  simp [digit, digitValue]

theorem prefixBase_marks (tail : List Char) {r : Nat} :
    Marks c r ↔ prefixBase ('0' :: c :: tail) = r ∧ r ≠ 0 := by
  constructor
  · rintro (_ | _ | _ | _ | _ | _) <;> exact ⟨rfl, by decide⟩
  · rintro ⟨rfl, found⟩
    simp only [prefixBase] at found ⊢
    split
    · next hex => rcases hex with rfl | rfl <;> constructor
    · split
      · next octal => rcases octal with rfl | rfl <;> constructor
      · split
        · next binary => rcases binary with rfl | rfl <;> constructor
        · simp_all

theorem prefixBase_shape (found : prefixBase digits ≠ 0) :
    ∃ c tail, digits = '0' :: c :: tail ∧ Marks c (prefixBase digits) := by
  unfold prefixBase at found
  split at found
  · next c tail =>
    exact ⟨c, tail, rfl, (prefixBase_marks tail).mpr ⟨rfl, found⟩⟩
  · exact absurd rfl found

/-- The letter of a prefix is no digit in its own base, and none of the decimal base. -/
theorem Marks.no_digit {r : Nat} (marks : Marks c r) : digit r c = none ∧ digit 10 c = none := by
  cases marks <;> decide

theorem Marks.no_blank {r : Nat} (marks : Marks c r) : isWhitespace c = false ∧ c ≠ '_' := by
  cases marks <;> decide

/-- Digits behind a prefix of their base are not read as digits with that prefix. -/
theorem Spaced.no_prefix {ds : List Nat} (spaced : Spaced '_' (if base = 0 then 10 else base) body ds)
    (goes : base = 0 ∨ base = prefixBase body) : prefixBase body = 0 := by
  by_contra found
  obtain ⟨c, tail, rfl, marks⟩ := prefixBase_shape found
  have second : digit (if base = 0 then 10 else base) c = none := by
    split
    · exact marks.no_digit.2
    · next given =>
      rw [goes.resolve_left given]
      exact marks.no_digit.1
  have plain : c ≠ '_' := marks.no_blank.2
  have read := (spaced_iff no_digit_mark).mp spaced
  rw [unmarked_cons (by decide), unmarked_cons plain] at read
  obtain ⟨-, rest, -, more, -⟩ := digits_cons_eq_some.mp read.2
  obtain ⟨d, -, value, -, -⟩ := digits_cons_eq_some.mp more
  rw [second] at value
  cases value

theorem stripBase_plain (goes : base = 0 ∨ base = prefixBase digits → prefixBase digits = 0) :
    stripBase base digits = (if base = 0 then 10 else base, digits) := by
  unfold stripBase
  rw [if_neg]
  rintro ⟨found, matching⟩
  exact found (goes matching)

theorem stripBase_marked {r : Nat} (marks : Marks c r) (goes : base = 0 ∨ base = r)
    (first : rest.head? ≠ some '_') : stripBase base ('0' :: c :: rest) = (r, rest) := by
  obtain ⟨found, nonzero⟩ := (prefixBase_marks rest).mp marks
  unfold stripBase
  simp only [found]
  rw [if_pos ⟨nonzero, goes⟩]
  cases rest with
  | nil => rfl
  | cons c tail =>
    have plain : c ≠ '_' := by simpa using first
    simp only [List.drop_succ_cons, List.drop_zero]
    split
    · next eq => exact absurd (List.cons.inj eq).1 plain
    · rfl

theorem stripBase_spaced {r : Nat} (marks : Marks c r) (goes : base = 0 ∨ base = r) :
    stripBase base ('0' :: c :: '_' :: rest) = (r, rest) := by
  obtain ⟨found, nonzero⟩ := (prefixBase_marks ('_' :: rest)).mp marks
  unfold stripBase
  simp only [found]
  rw [if_pos ⟨nonzero, goes⟩]
  rfl

/-- A prefix is taken off, or there is none that goes with the base. -/
theorem stripBase_cases (base : Nat) (digits : List Char) :
    (stripBase base digits = (if base = 0 then 10 else base, digits) ∧
        (base = 0 → prefixBase digits = 0)) ∨
      ∃ opening, Opening base opening (stripBase base digits).1 ∧ opening ≠ [] ∧
        digits = opening ++ (stripBase base digits).2 := by
  by_cases found : prefixBase digits ≠ 0 ∧ (base = 0 ∨ base = prefixBase digits)
  · right
    obtain ⟨c, tail, shape, marks⟩ := prefixBase_shape found.1
    generalize prefixBase digits = r at found marks
    subst shape
    cases tail with
    | nil =>
      rw [stripBase_marked marks found.2 (by simp)]
      exact ⟨['0', c], .marked marks found.2, by simp, rfl⟩
    | cons x tail =>
      by_cases gap : x = '_'
      · rw [gap, stripBase_spaced marks found.2]
        exact ⟨['0', c, '_'], .spaced marks found.2, by simp, rfl⟩
      · rw [stripBase_marked marks found.2 (by simpa using gap)]
        exact ⟨['0', c], .marked marks found.2, by simp, rfl⟩
  · left
    refine ⟨if_neg found, fun zero => ?_⟩
    by_contra no
    exact found ⟨no, .inl zero⟩

/-- The digits behind a sign, as the source takes them apart. -/
theorem unsigned_iff {n : Nat} :
    Unsigned base digits n ↔ ∃ ds, Spaced '_' (stripBase base digits).1 (stripBase base digits).2 ds ∧
      (base = 0 → prefixBase digits = 0 → ds.head? = some 0 → ∀ d ∈ ds, d = 0) ∧
      n = value (stripBase base digits).1 ds := by
  constructor
  · rintro ⟨opens, spaced, zeros⟩
    rename_i opening body radix ds
    have first : body.head? ≠ some '_' := ((spaced_iff no_digit_mark).mp spaced).1.2.1
    cases opens with
    | plain =>
      rw [List.nil_append, stripBase_plain (Spaced.no_prefix spaced)]
      exact ⟨ds, spaced, fun zero _ => zeros zero rfl, rfl⟩
    | marked marks goes =>
      show ∃ ds, _
      rw [List.cons_append, List.cons_append, List.nil_append, stripBase_marked marks goes first]
      obtain ⟨found, nonzero⟩ := (prefixBase_marks body).mp marks
      exact ⟨ds, spaced, fun _ none => absurd (found.symm.trans none) nonzero, rfl⟩
    | spaced marks goes =>
      rw [List.cons_append, List.cons_append, List.cons_append, List.nil_append,
        stripBase_spaced marks goes]
      obtain ⟨found, nonzero⟩ := (prefixBase_marks ('_' :: body)).mp marks
      exact ⟨ds, spaced, fun _ none => absurd (found.symm.trans none) nonzero, rfl⟩
  · rintro ⟨ds, spaced, zeros, rfl⟩
    rcases stripBase_cases base digits with ⟨plain, none⟩ | ⟨opening, opens, marked, eq⟩
    · rw [plain] at spaced ⊢
      have built := @Unsigned.intro base [] digits _ ds .plain spaced
        fun zero _ => zeros zero (none zero)
      exact built
    · have built := Unsigned.intro opens spaced fun _ empty => absurd empty marked
      rwa [← eq] at built

/-! ### Signs -/

theorem digit_char {d : Nat} (h : digit radix c = some d) :
    isWhitespace c = false ∧ c ≠ '-' ∧ c ≠ '+' := by
  obtain ⟨read, -⟩ := digit_eq_some.mp h
  have code : 48 ≤ c.toNat ∧ c.toNat ≤ 57 ∨ 97 ≤ c.toNat ∧ c.toNat ≤ 122 ∨
      65 ≤ c.toNat ∧ c.toNat ≤ 90 := by
    unfold digitValue at read
    by_contra outside
    rw [if_neg (by omega), if_neg (by omega), if_neg (by omega)] at read
    cases read
  refine ⟨?_, ?_, ?_⟩
  · unfold isWhitespace
    simp only [Bool.or_eq_false_iff, Bool.and_eq_false_iff, decide_eq_false_iff_not]
    omega
  · rintro rfl
    revert code
    decide
  · rintro rfl
    revert code
    decide

/-- A character that a number without a sign may have. -/
def Plain (c : Char) : Prop := isWhitespace c = false ∧ c ≠ '-' ∧ c ≠ '+'

theorem Spaced.chars {ds : List Nat} (spaced : Spaced '_' radix body ds) : ∀ c ∈ body, Plain c := by
  have gap : Plain '_' := by unfold Plain; decide
  induction spaced with
  | last hd => exact List.forall_mem_singleton.mpr (digit_char hd)
  | next hd _ ih => exact List.forall_mem_cons.mpr ⟨digit_char hd, ih⟩
  | marked hd _ ih =>
    exact List.forall_mem_cons.mpr ⟨digit_char hd, List.forall_mem_cons.mpr ⟨gap, ih⟩⟩

theorem Opening.chars (opens : Opening base digits radix) : ∀ c ∈ digits, Plain c := by
  cases opens with
  | plain => simp
  | marked marks goes => cases marks <;> simp [Plain, isWhitespace]
  | spaced marks goes => cases marks <;> simp [Plain, isWhitespace]

theorem Unsigned.chars {n : Nat} (unsigned : Unsigned base digits n) :
    digits ≠ [] ∧ ∀ c ∈ digits, Plain c := by
  obtain ⟨opens, spaced, -⟩ := unsigned
  constructor
  · exact List.append_ne_nil_of_right_ne_nil _ ((spaced_iff no_digit_mark).mp spaced).1.1
  · exact List.forall_mem_append.mpr ⟨opens.chars, Spaced.chars spaced⟩

theorem splitSign_split (text : List Char) :
    ∃ sign, Sign sign (splitSign text).1 ∧ text = sign ++ (splitSign text).2 := by
  unfold splitSign
  split
  · exact ⟨_, .minus, rfl⟩
  · exact ⟨_, .plus, rfl⟩
  · exact ⟨_, .none, rfl⟩

theorem splitSign_sign {sign : List Char} {negative : Bool} (signs : Sign sign negative)
    (plain : ∀ c ∈ body, Plain c) : splitSign (sign ++ body) = (negative, body) := by
  cases signs with
  | minus => rfl
  | plus => rfl
  | none =>
    cases body with
    | nil => rfl
    | cons c tail =>
      obtain ⟨-, minus, plus⟩ := plain c List.mem_cons_self
      show splitSign (c :: tail) = _
      unfold splitSign
      split
      · next eq => exact absurd (List.cons.inj eq).1 minus
      · next eq => exact absurd (List.cons.inj eq).1 plus
      · rfl

theorem literal_iff (ascii : ∀ c ∈ text, c.toNat < 128) {n : Int} :
    Literal base text n ↔ ∃ m, Unsigned base (splitSign (trim text)).2 m ∧
      n = if (splitSign (trim text)).1 then -(m : Int) else m := by
  constructor
  · rintro ⟨blank, signs, unsigned⟩
    rename_i before sign body after negative m
    obtain ⟨filled, plain⟩ := unsigned.chars
    have spaces : ∀ c ∈ before ++ after, isWhitespace c = true := by
      intro c mem
      have := blank c mem
      apply (isWhitespace_iff ?_).mpr this
      unfold Blank at this
      omega
    have solid : ∀ c ∈ sign ++ body, isWhitespace c = false := by
      intro c mem
      rcases List.mem_append.mp mem with mem | mem
      · cases signs with
        | none => cases mem
        | plus | minus => rw [List.mem_singleton.mp mem]; rfl
      · exact (plain c mem).1
    rw [trim_of_blank spaces (List.append_ne_nil_of_right_ne_nil _ filled) solid,
      splitSign_sign signs plain]
    exact ⟨m, unsigned, rfl⟩
  · rintro ⟨m, unsigned, rfl⟩
    obtain ⟨before, after, whole, spaces⟩ := trim_split text
    obtain ⟨sign, signs, split⟩ := splitSign_split (trim text)
    have blank : ∀ c ∈ before ++ after, Blank c := by
      intro c mem
      apply (isWhitespace_iff (ascii c ?_)).mp (spaces c mem)
      rw [whole]
      rcases List.mem_append.mp mem with mem | mem <;> simp [mem]
    have built := Literal.intro blank signs unsigned
    rwa [← split, ← whole] at built

/-! ### What the source accepts -/

variable {parseBytes : List Char → Nat → Option Int}

/-- A leading zero where the base is not given, in a number that is not zero. -/
def LeadingZero (base : Nat) (digits normalized : List Char) : Prop :=
  base = 0 ∧ prefixBase digits = 0 ∧ 1 < normalized.length ∧ normalized.head? = some '0' ∧
    normalized.any (· ≠ '0')

theorem stripBase_range (valid : base = 0 ∨ 2 ≤ base ∧ base ≤ 36) (digits : List Char) :
    2 ≤ (stripBase base digits).1 ∧ (stripBase base digits).1 ≤ 36 := by
  rcases stripBase_cases base digits with ⟨plain, -⟩ | ⟨opening, opens, marked, -⟩
  · rw [plain]
    simp only
    split <;> omega
  · generalize (stripBase base digits).1 = radix at opens
    cases opens with
    | plain => exact absurd rfl marked
    | marked marks => cases marks <;> decide
    | spaced marks => cases marks <;> decide

theorem stripBase_nil (base : Nat) : (stripBase base []).2 = [] := by
  unfold stripBase
  rw [if_neg (by simp [prefixBase])]

theorem parseIntLiteral_iff (parses : ParsesSigned parseBytes)
    (valid : base = 0 ∨ 2 ≤ base ∧ base ≤ 36) {n : Int} :
    parseIntLiteral parseBytes text base = some n ↔
      let digits := (splitSign (trim text)).2
      let (radix, rest) := stripBase base digits
      Placed '_' rest ∧ ¬ LeadingZero base digits (unmarked '_' rest) ∧
        ∃ v, signed radix (unmarked '_' rest) = some v ∧
          n = if (splitSign (trim text)).1 then -v else v := by
  have range := stripBase_range valid (splitSign (trim text)).2
  have unmark : '_' ∉ unmarked '_' (stripBase base (splitSign (trim text)).2).2 := by
    simp [unmarked]
  have empty := stripBase_nil base
  unfold parseIntLiteral
  simp only
  generalize (splitSign (trim text)).1 = negative
  generalize (splitSign (trim text)).2 = digits at *
  rw [parses _ _ range.1 range.2 unmark]
  by_cases none : digits = []
  · subst none
    rw [if_pos rfl, empty]
    simp [Placed]
  · rw [if_neg none]
    obtain ⟨radix, rest⟩ := stripBase base digits
    simp only
    by_cases placed : Placed '_' rest
    · have fine : ¬ (rest = [] ∨ rest.head? = some '_' ∨ rest.getLast? = some '_' ∨
          ['_', '_'] <:+: rest) := by
        obtain ⟨filled, first, last, apart⟩ := placed
        tauto
      rw [if_neg fine]
      split
      · next leading =>
        have zero : LeadingZero base digits (unmarked '_' rest) := leading
        simp [zero]
      · next fine =>
        have zero : ¬ LeadingZero base digits (unmarked '_' rest) := fine
        simp only [placed, zero, not_false_eq_true, true_and, Option.map_eq_some_iff]
        constructor <;> rintro ⟨v, read, eq⟩ <;> exact ⟨v, read, eq.symm⟩
    · rw [if_pos]
      · simp [placed]
      · unfold Placed at placed
        tauto

/-- What is left behind the sign and the prefix is a number with a sign of its own. -/
def SignLeft (base : Nat) (text : List Char) : Prop :=
  let (radix, rest) := stripBase base (splitSign (trim text)).2
  Placed '_' rest ∧ ∃ c tail, rest = c :: tail ∧ (c = '-' ∨ c = '+') ∧
    (natural radix (unmarked '_' tail)).isSome = true

/-- Without a sign of its own, the rest is well spaced digits. -/
theorem signed_iff (placed : Placed '_' rest) {v : Int}
    (unsigned : ∀ tail, rest ≠ '-' :: tail ∧ rest ≠ '+' :: tail) :
    signed radix (unmarked '_' rest) = some v ↔
      ∃ ds, Spaced '_' radix rest ds ∧ v = value radix ds := by
  obtain ⟨c, tail, rfl⟩ := List.exists_cons_of_ne_nil placed.1
  have plain : c ≠ '_' := by simpa using placed.2.1
  have same : signed radix (unmarked '_' (c :: tail)) =
      (natural radix (unmarked '_' (c :: tail))).map Int.ofNat := by
    rw [unmarked_cons plain]
    unfold signed
    split
    · next eq => exact absurd (by rw [(List.cons.inj eq).1]) (unsigned tail).1
    · next eq => exact absurd (by rw [(List.cons.inj eq).1]) (unsigned tail).2
    · rfl
  have filled : unmarked '_' (c :: tail) ≠ [] := by
    rw [unmarked_cons plain]
    exact List.cons_ne_nil _ _
  rw [same, Option.map_eq_some_iff]
  simp only [natural_eq_some, spaced_iff no_digit_mark, placed, true_and, filled, ne_eq,
    not_false_eq_true]
  constructor
  · rintro ⟨_, ⟨ds, read, rfl⟩, rfl⟩
    exact ⟨ds, read, rfl⟩
  · rintro ⟨ds, read, rfl⟩
    exact ⟨_, ⟨ds, read, rfl⟩, rfl⟩

theorem leadingZero_iff (range : 2 ≤ radix) {normalized : List Char} {ds : List Nat}
    (read : Numeral.digits radix normalized = some ds) :
    ¬ LeadingZero base digits normalized ↔
      (base = 0 → prefixBase digits = 0 → ds.head? = some 0 → ∀ d ∈ ds, d = 0) := by
  rw [head_digits (by omega) read, all_zero (by omega) read]
  unfold LeadingZero
  cases normalized with
  | nil => simp
  | cons c tail =>
    cases tail with
    | nil => simp
    | cons x tail => simp

/-- What the source accepts where no sign is left. -/
theorem parseIntLiteral_unsigned (parses : ParsesSigned parseBytes)
    (valid : base = 0 ∨ 2 ≤ base ∧ base ≤ 36)
    (unsigned : ∀ tail, (stripBase base (splitSign (trim text)).2).2 ≠ '-' :: tail ∧
      (stripBase base (splitSign (trim text)).2).2 ≠ '+' :: tail) {n : Int} :
    parseIntLiteral parseBytes text base = some n ↔
      ∃ m, Unsigned base (splitSign (trim text)).2 m ∧
        n = if (splitSign (trim text)).1 then -(m : Int) else m := by
  have range := (stripBase_range valid (splitSign (trim text)).2).1
  rw [parseIntLiteral_iff parses valid]
  simp only [unsigned_iff]
  generalize (splitSign (trim text)).1 = negative
  generalize (splitSign (trim text)).2 = digits at *
  generalize (stripBase base digits).1 = radix, (stripBase base digits).2 = rest at *
  constructor
  · rintro ⟨placed, zero, v, read, rfl⟩
    obtain ⟨ds, spaced, rfl⟩ := (signed_iff placed unsigned).mp read
    have zeros := (leadingZero_iff range ((spaced_iff no_digit_mark).mp spaced).2).mp zero
    exact ⟨_, ⟨ds, spaced, zeros, rfl⟩, rfl⟩
  · rintro ⟨_, ⟨ds, spaced, zeros, rfl⟩, rfl⟩
    obtain ⟨placed, read⟩ := (spaced_iff no_digit_mark).mp spaced
    exact ⟨placed, (leadingZero_iff range read).mpr zeros, _,
      (signed_iff placed unsigned).mpr ⟨ds, spaced, rfl⟩, rfl⟩

/-- With a sign of its own, the rest is no number of the language. -/
theorem not_unsigned {tail : List Char} (sign : c = '-' ∨ c = '+')
    (left : (stripBase base digits).2 = c :: tail) {m : Nat} : ¬ Unsigned base digits m := by
  rw [unsigned_iff, left]
  rintro ⟨ds, spaced, -⟩
  obtain ⟨-, minus, plus⟩ := Spaced.chars spaced c List.mem_cons_self
  tauto

theorem signed_isSome {tail : List Char} (sign : c = '-' ∨ c = '+') :
    (signed radix (c :: tail)).isSome = (natural radix tail).isSome := by
  rcases sign with rfl | rfl
  · simp only [signed, Option.isSome_map]
  · simp only [signed, Option.isSome_map]

/-- A rest with a sign of its own is accepted, if digits follow. -/
theorem signLeft_iff (parses : ParsesSigned parseBytes) (valid : base = 0 ∨ 2 ≤ base ∧ base ≤ 36)
    {tail : List Char} (left : (stripBase base (splitSign (trim text)).2).2 = c :: tail)
    (sign : c = '-' ∨ c = '+') :
    (∃ n, parseIntLiteral parseBytes text base = some n) ↔ SignLeft base text := by
  have plain : c ≠ '_' ∧ c ≠ '0' := by rcases sign with rfl | rfl <;> decide
  have zero (digits : List Char) : ¬ LeadingZero base digits (unmarked '_' (c :: tail)) := by
    rw [unmarked_cons plain.1]
    rintro ⟨-, -, -, first, -⟩
    exact plain.2 (Option.some.inj first)
  simp only [parseIntLiteral_iff parses valid, SignLeft, left, zero, not_false_eq_true, true_and]
  rw [unmarked_cons plain.1]
  constructor
  · rintro ⟨_, placed, v, read, -⟩
    refine ⟨placed, c, tail, rfl, sign, ?_⟩
    rw [← signed_isSome sign, read]
    rfl
  · rintro ⟨placed, _, _, ⟨rfl, rfl⟩, -, digits⟩
    rw [← signed_isSome sign, Option.isSome_iff_exists] at digits
    obtain ⟨v, read⟩ := digits
    exact ⟨_, placed, v, read, rfl⟩

/-- The literals are read as the language has them, unless a sign is left for the parser of the big
integers. -/
theorem int_literal_right (parses : ParsesSigned parseBytes)
    (valid : base = 0 ∨ 2 ≤ base ∧ base ≤ 36) (ascii : ∀ c ∈ text, c.toNat < 128) :
    (∀ n, parseIntLiteral parseBytes text base = some n ↔ Literal base text n) ↔
      ¬ SignLeft base text := by
  by_cases unsigned : ∀ tail, (stripBase base (splitSign (trim text)).2).2 ≠ '-' :: tail ∧
      (stripBase base (splitSign (trim text)).2).2 ≠ '+' :: tail
  · have right (n : Int) : parseIntLiteral parseBytes text base = some n ↔ Literal base text n := by
      rw [literal_iff ascii, parseIntLiteral_unsigned parses valid unsigned]
    refine iff_of_true right ?_
    rintro ⟨-, c, tail, left, rfl | rfl, -⟩
    · exact (unsigned tail).1 left
    · exact (unsigned tail).2 left
  · obtain ⟨c, tail, left, sign⟩ : ∃ c tail,
        (stripBase base (splitSign (trim text)).2).2 = c :: tail ∧ (c = '-' ∨ c = '+') := by
      obtain ⟨tail, left⟩ := not_forall.mp unsigned
      by_cases minus : (stripBase base (splitSign (trim text)).2).2 = '-' :: tail
      · exact ⟨_, tail, minus, .inl rfl⟩
      · exact ⟨_, tail, not_not.mp fun plus => left ⟨minus, plus⟩, .inr rfl⟩
    have none (n : Int) : ¬ Literal base text n := by
      rw [literal_iff ascii]
      rintro ⟨m, literal, -⟩
      exact not_unsigned sign left literal
    have accepts := signLeft_iff parses valid left sign
    constructor
    · intro right again
      obtain ⟨n, read⟩ := accepts.mpr again
      exact none n ((right n).mp read)
    · intro clean n
      exact iff_of_false (fun read => clean (accepts.mp ⟨n, read⟩)) (none n)

theorem ascii_of_all (all : (text.all fun c => decide (c.toNat < 128)) = true) :
    ∀ c ∈ text, c.toNat < 128 :=
  fun c mem => of_decide_eq_true (List.all_eq_true.mp all c mem)

theorem int_literal_right_hex :
    parseIntLiteral (fun text radix => signed radix text) " 0x_1f ".toList 0 = some 31 ↔
      Literal 0 " 0x_1f ".toList 31 := by
  refine (int_literal_right (fun _ _ _ _ _ => rfl) (.inl rfl) (ascii_of_all (by decide))).mpr ?_ 31
  rintro ⟨-, c, tail, left, sign, -⟩
  cases left
  revert sign
  decide

/-- Two signs are accepted. -/
theorem two_signs_accepted : ∃ parseBytes, ParsesSigned parseBytes ∧
    parseIntLiteral parseBytes "--5".toList 10 = some 5 ∧ ¬ Literal 10 "--5".toList 5 := by
  refine ⟨fun text radix => signed radix text, fun _ _ _ _ _ => rfl, by decide, ?_⟩
  rw [literal_iff (ascii_of_all (by decide))]
  rintro ⟨m, literal, -⟩
  have left : (stripBase 10 (splitSign (trim "--5".toList)).2).2 = '-' :: ['5'] := by decide
  exact not_unsigned (.inl rfl) left literal

end Tonic
