import Mathlib

/-! A character stream read by numbers and by lines, and what is printed for it: decimal
numbers, and lines of single characters with blanks between them. -/
namespace PaxosPsi.TextStream

structure IStream where
  text : List Char
  good : Bool

def isspace (c : Char) : Bool := c = ' ' || (9 ≤ c.toNat && c.toNat ≤ 13)

/-- The sign an unsigned number may carry, and what stands after it. -/
def signed : List Char → Bool × List Char
  | '-' :: rest => (true, rest)
  | '+' :: rest => (false, rest)
  | rest => (false, rest)

/-- `in >> n` for an unsigned number; `none` where the stream fails. -/
def readU64 (s : IStream) : Option (Nat × IStream) :=
  let number := signed (s.text.dropWhile isspace)
  let digits := number.2.takeWhile Char.isDigit
  let rest := number.2.dropWhile Char.isDigit
  let n := Nat.ofDigitChars 10 digits 0
  if s.good ∧ digits ≠ [] ∧ n < 2 ^ 64 then
    some (if number.1 then (2 ^ 64 - n) % 2 ^ 64 else n, ⟨rest, !rest.isEmpty⟩)
  else none

/-- `std::getline(in, line)`; a stream that is not good leaves the line as it was. -/
def getline (s : IStream) (line : List Char) : List Char × IStream :=
  if s.good then
    (s.text.takeWhile (· != '\n'), ⟨(s.text.dropWhile (· != '\n')).drop 1, !(s.text.dropWhile (· != '\n')).isEmpty⟩)
  else (line, s)

/-- `out << n` for an unsigned number. -/
def printU64 (n : Nat) : List Char := Nat.toDigits 10 n

theorem whileStops {p : Char → Bool} {l : List Char} {c : Char} (all : ∀ d ∈ l, p d) (stop : p c = false)
    (rest : List Char) : (l ++ c :: rest).takeWhile p = l ∧ (l ++ c :: rest).dropWhile p = c :: rest := by
  induction l with
  | nil => simp [stop]
  | cons d l ih =>
    obtain ⟨taken, left⟩ := ih fun e listed => all e (List.mem_cons_of_mem d listed)
    simp [all d List.mem_cons_self, taken, left]

section Numbers

theorem digitPlain {c : Char} (digit : c.isDigit) : isspace c = false ∧ c ≠ '-' ∧ c ≠ '+' := by
  refine ⟨?_, ?_, ?_⟩
  · rw [Char.isDigit_iff_toNat] at digit
    have blank : c ≠ ' ' := by
      rintro rfl
      exact absurd digit.1 (by decide)
    simp only [isspace, blank, decide_false, Bool.false_or, Bool.and_eq_false_iff, decide_eq_false_iff_not]
    right
    have low : '0'.toNat = 48 := rfl
    omega
  · rintro rfl
    cases digit
  · rintro rfl
    cases digit

theorem signedDigit {c : Char} (digit : c.isDigit) (rest : List Char) : signed (c :: rest) = (false, c :: rest) := by
  obtain ⟨-, minus, plus⟩ := digitPlain digit
  unfold signed
  split
  · rename_i same
    exact absurd (List.cons.inj same).1 minus
  · rename_i same
    exact absurd (List.cons.inj same).1 plus
  · rfl

theorem readPrinted {n : Nat} (small : n < 2 ^ 64) {c : Char} (stop : c.isDigit = false) (blanks : List Char)
    (space : ∀ b ∈ blanks, isspace b) (rest : List Char) :
    readU64 ⟨blanks ++ (printU64 n ++ c :: rest), true⟩ = some (n, ⟨c :: rest, true⟩) := by
  have digits : ∀ d ∈ printU64 n, d.isDigit := fun d listed =>
    Nat.isDigit_of_mem_toDigits (by decide) (by decide) listed
  have nonempty : printU64 n ≠ [] := Nat.toDigits_ne_nil
  obtain ⟨first, others, printed⟩ := List.exists_cons_of_ne_nil nonempty
  have firstDigit := digits first (printed ▸ List.mem_cons_self)
  have skipped : (blanks ++ (printU64 n ++ c :: rest)).dropWhile isspace = printU64 n ++ c :: rest := by
    rw [printed]
    exact (whileStops space (digitPlain firstDigit).1 _).2
  have unsigned : signed (printU64 n ++ c :: rest) = (false, printU64 n ++ c :: rest) := by
    rw [printed]
    exact signedDigit firstDigit _
  obtain ⟨taken, left⟩ := whileStops digits stop rest
  have value : Nat.ofDigitChars 10 (printU64 n) 0 = n := Nat.ofDigitChars_ten_toDigits
  unfold readU64
  simp only [skipped, unsigned, taken, left, value]
  rw [if_pos ⟨trivial, nonempty, small⟩]
  rfl

end Numbers

section Lines

theorem getlinePrinted {line : List Char} (plain : '\n' ∉ line) (rest old : List Char) :
    getline ⟨line ++ '\n' :: rest, true⟩ old = (line, ⟨rest, true⟩) := by
  have other : ∀ d ∈ line, (d != '\n') = true := by
    intro d listed
    rw [bne_iff_ne]
    rintro rfl
    exact plain listed
  obtain ⟨taken, left⟩ := whileStops (p := (· != '\n')) other (bne_self_eq_false '\n') rest
  unfold getline
  rw [if_pos rfl, taken, left]
  rfl

variable (f : Nat → Char)

/-- Characters with a blank after each. -/
def spaced (n : Nat) : List Char := (List.range n).flatMap fun col => [f col, ' ']

theorem spacedSucc (n : Nat) : spaced f (n + 1) = spaced f n ++ [f n, ' '] := by
  unfold spaced
  rw [List.range_succ, List.flatMap_append, List.flatMap_singleton]

theorem spacedLength (n : Nat) : (spaced f n).length = 2 * n := by
  induction n with
  | zero => rfl
  | succ n ih =>
    rw [spacedSucc, List.length_append, ih]
    rfl

theorem spacedAt (n : Nat) {j : Nat} (inside : j ≤ n) (d : Char) : (spaced f n ++ [f n]).getD (2 * j) d = f j := by
  induction n with
  | zero =>
    obtain rfl : j = 0 := by omega
    rfl
  | succ n ih =>
    by_cases last : j = n + 1
    · subst last
      rw [List.getD_append_right _ _ _ _ (Nat.le_of_eq (spacedLength f (n + 1))), spacedLength, Nat.sub_self]
      rfl
    · have before := ih (by omega)
      have length := spacedLength f n
      rw [spacedSucc, show [f n, ' '] = [f n] ++ [' '] from rfl, ← List.append_assoc, List.append_assoc _ [' '],
        List.getD_append _ _ _ _ (by rw [List.length_append, length, List.length_singleton]; omega)]
      exact before

theorem spacedCongr {f g : Nat → Char} {n : Nat} (same : ∀ col < n, f col = g col) : spaced f n = spaced g n := by
  unfold spaced
  apply List.flatMap_congr
  intro col listed
  rw [same col (List.mem_range.mp listed)]

theorem spacedPlain (n : Nat) {c : Char} (blank : c ≠ ' ') (other : ∀ col, f col ≠ c) : c ∉ spaced f n ++ [f n] := by
  intro listed
  rcases List.mem_append.mp listed with inside | last
  · obtain ⟨col, -, here⟩ := List.mem_flatMap.mp inside
    rcases List.mem_cons.mp here with same | same
    · exact other col same.symm
    · exact blank (List.mem_singleton.mp same)
  · exact other n (List.mem_singleton.mp last).symm

end Lines
end PaxosPsi.TextStream
