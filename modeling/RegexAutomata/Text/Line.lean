/-! Text made of lines: every line ends with a line feed. -/
namespace RegexAutomata

def unlines (lines : List (List Char)) : List Char := lines.flatMap (· ++ ['\n'])

def decimal (n : Nat) : List Char := Nat.toDigits 10 n

/-- The lines of a text; what stands behind the last line feed is a line as well. -/
def lines : List Char → List (List Char)
  | [] => []
  | c :: t =>
    if c = '\n' then [] :: lines t
    else
      match lines t with
      | [] => [[c]]
      | l :: ls => (c :: l) :: ls

def number? (t : List Char) : Option (Nat × List Char) :=
  match t.takeWhile Char.isDigit with
  | [] => none
  | digits => some (Nat.ofDigitChars 10 digits 0, t.dropWhile Char.isDigit)

theorem decimal_inj {m n : Nat} : decimal m = decimal n ↔ m = n :=
  ⟨fun h => by simpa [decimal] using congrArg (Nat.ofDigitChars 10 · 0) h, fun h => h ▸ rfl⟩

theorem isDigit_of_mem_decimal {n : Nat} {c : Char} (h : c ∈ decimal n) : c.isDigit = true :=
  Nat.isDigit_of_mem_toDigits (by decide) (by decide) h

/-- A number is read off where no further digit stands behind it. -/
theorem number?_decimal_append (n : Nat) {t : List Char}
    (h : t.takeWhile Char.isDigit = []) : number? (decimal n ++ t) = some (n, t) := by
  have hdigits : ∀ c ∈ decimal n, c.isDigit = true := fun c hc => isDigit_of_mem_decimal hc
  have htake : (decimal n ++ t).takeWhile Char.isDigit = decimal n := by
    rw [List.takeWhile_append_of_pos hdigits, h, List.append_nil]
  have hdrop : (decimal n ++ t).dropWhile Char.isDigit = t := by
    rw [List.dropWhile_append_of_pos hdigits, ← List.nil_append (t.dropWhile _), ← h,
      List.takeWhile_append_dropWhile]
  have hne : decimal n ≠ [] := Nat.toDigits_ne_nil
  cases hd : decimal n with
  | nil => exact absurd hd hne
  | cons c u =>
    have hvalue : Nat.ofDigitChars 10 (decimal n) 0 = n :=
      Nat.ofDigitChars_toDigits (by decide) (by decide)
    rw [hd] at htake hdrop hvalue
    rw [number?, htake, hdrop]
    exact congrArg (fun k => some (k, t)) hvalue

theorem lines_line_append {l : List Char} (h : '\n' ∉ l) (t : List Char) :
    lines (l ++ '\n' :: t) = l :: lines t := by
  induction l with
  | nil => rfl
  | cons c l ih =>
    obtain ⟨hc, hl⟩ := not_or.1 (mt List.mem_cons.2 h)
    simp [lines, Ne.symm hc, ih hl]

/-- Lines without line feeds are told apart again. -/
theorem lines_unlines {ls : List (List Char)} (h : ∀ l ∈ ls, '\n' ∉ l) :
    lines (unlines ls) = ls := by
  induction ls with
  | nil => rfl
  | cons l ls ih =>
    obtain ⟨hl, hls⟩ := List.forall_mem_cons.1 h
    rw [unlines, List.flatMap_cons, List.append_assoc, List.singleton_append,
      lines_line_append hl]
    exact congrArg (l :: ·) (ih hls)

end RegexAutomata
