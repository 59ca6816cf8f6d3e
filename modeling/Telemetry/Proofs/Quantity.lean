import Telemetry.Host.Keyed
import Telemetry.Proofs.DurationText

/-! Quantities as they are written: a number of bytes by itself, or one of kibibytes in front of its
unit. A text is cut into its words at white space, and the first two of them decide. -/

namespace Telemetry

namespace Text

/-- The digits of a number, at least one. -/
structure Digits (n : ℕ) (digits : List Char) : Prop where
  there : digits ≠ []
  digit : ∀ c ∈ digits, c.isDigit
  value : Nat.ofDigitChars 10 digits 0 = n

/-- The words for a number: its digits, which a plus sign may precede. -/
inductive Numbers (n : ℕ) : List Char → Prop
  | plain {digits : List Char} (h : Digits n digits) : Numbers n digits
  | signed {digits : List Char} (h : Digits n digits) : Numbers n ('+' :: digits)

theorem natural?_eq_some_iff {cs : List Char} {n : ℕ} : natural? cs = some n ↔ Digits n cs := by
  constructor
  · intro h
    obtain ⟨ds, rest, rfl, hds, hrest⟩ := exists_digits cs
    have hrun : digitRun (ds ++ rest) = ⟨ds.length, Nat.ofDigitChars 10 ds 0, rest⟩ := by
      rw [digitRun, digitRunFrom_append hds hrest, Nat.zero_add]
    rw [natural?, hrun] at h
    simp only [ne_eq, List.length_eq_zero_iff, Option.ite_none_right_eq_some,
      Option.some.injEq] at h
    obtain ⟨⟨there, rfl⟩, value⟩ := h
    rw [List.append_nil]
    exact ⟨there, hds, value⟩
  · rintro ⟨there, digit, rfl⟩
    exact natural?_digits digit there

theorem Digits.not_plus {n : ℕ} {ds : List Char} : ¬Digits n ('+' :: ds) := fun h => by
  simpa using h.digit '+' List.mem_cons_self

theorem unsigned?_eq_some_iff {bound n : ℕ} {cs : List Char} :
    unsigned? bound cs = some n ↔ Numbers n cs ∧ n < bound := by
  have within {r : Option ℕ} : (r.bind fun m => if m < bound then some m else none) = some n ↔
      r = some n ∧ n < bound := by
    rw [Option.bind_eq_some_iff]
    constructor
    · rintro ⟨m, hm, h⟩
      split_ifs at h with hlow
      obtain rfl := Option.some.inj h
      exact ⟨hm, hlow⟩
    · rintro ⟨hn, hlow⟩
      exact ⟨n, hn, if_pos hlow⟩
  unfold unsigned?
  split
  · next ds =>
    refine within.trans (and_congr_left fun _ => natural?_eq_some_iff.trans ⟨.signed, fun h => ?_⟩)
    cases h with
    | plain h => exact (Digits.not_plus h).elim
    | signed h => exact h
  · next hplus =>
    refine within.trans (and_congr_left fun _ => natural?_eq_some_iff.trans ⟨.plain, fun h => ?_⟩)
    cases h with
    | plain h => exact h
    | signed h => exact absurd rfl (hplus _)

/-! ### Words -/

/-- A word: one or more characters, none of them white space. -/
structure Word (cs : List Char) : Prop where
  there : cs ≠ []
  solid : ∀ c ∈ cs, isBlank c = false

/-- What may follow a word: nothing, or what begins with white space. -/
def Parted (rest : List Char) : Prop := ∀ c ∈ rest.head?, isBlank c

theorem Numbers.word {n : ℕ} {cs : List Char} (h : Numbers n cs) : Word cs := by
  cases h with
  | plain h => exact ⟨h.there, fun c hc => isBlank_digit (h.digit c hc)⟩
  | signed h =>
    refine ⟨List.cons_ne_nil _ _, List.forall_mem_cons.2 ⟨rfl, fun c hc => ?_⟩⟩
    exact isBlank_digit (h.digit c hc)

theorem words_blank {front : List Char} (hfront : ∀ c ∈ front, isBlank c) (cs : List Char) :
    words (front ++ cs) = words cs := by
  induction front with
  | nil => rfl
  | cons c front ih =>
    obtain ⟨hc, hfront⟩ := List.forall_mem_cons.1 hfront
    rw [← ih hfront, List.cons_append, words, wordsFrom, if_pos hc]
    rfl

theorem wordsFrom_solid {word : List Char} (hword : ∀ c ∈ word, isBlank c = false)
    (part rest : List Char) :
    wordsFrom part (word ++ rest) = wordsFrom (word.reverse ++ part) rest := by
  induction word generalizing part with
  | nil => rfl
  | cons c word ih =>
    obtain ⟨hc, hword⟩ := List.forall_mem_cons.1 hword
    rw [List.cons_append, wordsFrom, hc, if_neg Bool.false_ne_true, ih hword, List.reverse_cons,
      List.append_assoc, List.singleton_append]

theorem words_word {word rest : List Char} (h : Word word) (hrest : Parted rest) :
    words (word ++ rest) = word :: words rest := by
  obtain ⟨c, word', hword⟩ := List.exists_cons_of_ne_nil (List.reverse_ne_nil_iff.2 h.there)
  have hback : word = (c :: word').reverse := by rw [← hword, List.reverse_reverse]
  rw [words, wordsFrom_solid h.solid, List.append_nil, hword]
  cases rest with
  | nil => rw [hback]; rfl
  | cons d rest =>
    have hd : isBlank d := hrest d rfl
    simp [wordsFrom, words, hd, hback]

theorem exists_word (cs : List Char) : (∀ c ∈ cs, isBlank c) ∨
    ∃ front word rest, cs = front ++ (word ++ rest) ∧ (∀ c ∈ front, isBlank c) ∧ Word word ∧
      Parted rest := by
  let body := cs.dropWhile isBlank
  have hcs : cs = cs.takeWhile isBlank ++ body := List.takeWhile_append_dropWhile.symm
  have hfront : ∀ c ∈ cs.takeWhile isBlank, isBlank c := fun c => List.mem_takeWhile_imp
  have hbody : body = body.takeWhile (!isBlank ·) ++ body.dropWhile (!isBlank ·) :=
    List.takeWhile_append_dropWhile.symm
  cases hhead : body with
  | nil =>
    left
    rw [hcs, hhead, List.append_nil]
    exact hfront
  | cons c rest =>
    have hc : isBlank c = false := by
      have hmem : c ∈ (cs.dropWhile isBlank).head? := congrArg List.head? hhead
      exact isBlank_head_dropWhile hmem
    refine Or.inr ⟨_, body.takeWhile (!isBlank ·), body.dropWhile (!isBlank ·), ?_, hfront,
      ⟨?_, fun d hd => ?_⟩, fun d hd => ?_⟩
    · rw [← hbody]
      exact hcs
    · simp [hhead, hc]
    · simpa using List.mem_takeWhile_imp hd
    · have hnot := List.head?_dropWhile_not (!isBlank ·) body
      rw [Option.mem_def.1 hd] at hnot
      simpa using hnot

theorem words_eq_nil_iff {cs : List Char} : words cs = [] ↔ ∀ c ∈ cs, isBlank c := by
  constructor
  · intro h
    rcases exists_word cs with hblank | ⟨front, word, rest, rfl, hfront, hword, hrest⟩
    · exact hblank
    · rw [words_blank hfront, words_word hword hrest] at h
      cases h
  · intro h
    have := words_blank h []
    rwa [List.append_nil] at this

theorem words_eq_cons_iff {cs word : List Char} {more : List (List Char)} :
    words cs = word :: more ↔ ∃ front rest, cs = front ++ (word ++ rest) ∧
      (∀ c ∈ front, isBlank c) ∧ Word word ∧ Parted rest ∧ words rest = more := by
  constructor
  · intro h
    rcases exists_word cs with hblank | ⟨front, first, rest, rfl, hfront, hfirst, hrest⟩
    · rw [words_eq_nil_iff.2 hblank] at h
      cases h
    · rw [words_blank hfront, words_word hfirst hrest] at h
      obtain ⟨rfl, rfl⟩ := List.cons.inj h
      exact ⟨front, rest, rfl, hfront, hfirst, hrest, rfl⟩
  · rintro ⟨front, rest, rfl, hfront, hword, hrest, rfl⟩
    rw [words_blank hfront, words_word hword hrest]

end Text

namespace Host

open Text (White Numbers Word Parted isBlank words)

/-- The texts of a quantity. A number by itself is one of bytes; one of kibibytes has its unit as the
next word, and whatever comes behind that means nothing. -/
inductive Amount (size : ℕ) : List Char → Prop
  | bytes {front number back : List Char} (hfront : White front) (hnumber : Numbers size number)
    (hbound : size < 2 ^ 64) (hback : White back) : Amount size (front ++ (number ++ back))
  | kibibytes {front number gap rest : List Char} {n : ℕ} (hfront : White front)
    (hnumber : Numbers n number) (hsize : size = n * 1024) (hbound : size < 2 ^ 64)
    (hgap : White gap) (hne : gap ≠ []) (hrest : ∀ c ∈ rest.head?, White [c]) :
    Amount size (front ++ (number ++ (gap ++ ("kB".toList ++ rest))))

theorem word64?_eq_some_iff {n : ℕ} {word : List Char} :
    Text.word64? word = some n ↔ Numbers n word ∧ n < 2 ^ 64 := Text.unsigned?_eq_some_iff

theorem parted_iff {rest : List Char} : Parted rest ↔ ∀ c ∈ rest.head?, White [c] := by
  simp only [Parted, Text.white_iff, List.forall_mem_singleton]

theorem word_kilo : Word "kB".toList :=
  ⟨List.cons_ne_nil _ _, List.forall_mem_cons.2 ⟨rfl, List.forall_mem_singleton.2 rfl⟩⟩

theorem parted_gap {gap : List Char} (hgap : ∀ c ∈ gap, isBlank c) (hne : gap ≠ [])
    (rest : List Char) : Parted (gap ++ rest) := by
  intro c hc
  rw [List.head?_append_of_ne_nil _ hne] at hc
  exact hgap c (List.mem_of_mem_head? hc)

theorem gap_ne_nil {gap word rest : List Char} (hparted : Parted (gap ++ (word ++ rest)))
    (hword : Word word) : gap ≠ [] := by
  rintro rfl
  obtain ⟨c, word, rfl⟩ := List.exists_cons_of_ne_nil hword.there
  have hblank : isBlank c := hparted c rfl
  rw [hword.solid c List.mem_cons_self] at hblank
  cases hblank

theorem quantity?_eq_some_iff {raw : List Char} {size : ℕ} :
    quantity? raw = some size ↔ Amount size raw := by
  constructor
  · intro h
    unfold quantity? at h
    split at h
    · cases h
    · next number hwords =>
      obtain ⟨front, back, rfl, hfront, -, -, hback⟩ := Text.words_eq_cons_iff.1 hwords
      obtain ⟨hnumber, hbound⟩ := word64?_eq_some_iff.1 h
      exact .bytes (Text.white_iff.2 hfront) hnumber hbound
        (Text.white_iff.2 (Text.words_eq_nil_iff.1 hback))
    · next number unit _ hwords =>
      obtain ⟨front, tail, rfl, hfront, -, hparted, hunit⟩ := Text.words_eq_cons_iff.1 hwords
      obtain ⟨gap, rest, rfl, hgap, hword, hrest, -⟩ := Text.words_eq_cons_iff.1 hunit
      obtain ⟨n, hn, hsize⟩ := Option.bind_eq_some_iff.1 h
      split_ifs at hsize with hkilo
      obtain ⟨rfl, hbound⟩ := hkilo
      obtain rfl := Option.some.inj hsize
      exact .kibibytes (Text.white_iff.2 hfront) (word64?_eq_some_iff.1 hn).1 rfl hbound
        (Text.white_iff.2 hgap) (gap_ne_nil hparted hword) (parted_iff.1 hrest)
  · intro h
    cases h with
    | @bytes front number back hfront hnumber hbound hback =>
      have hblank := Text.white_iff.1 hback
      have hparted : Parted back := fun c hc => hblank c (List.mem_of_mem_head? hc)
      have hwords : words (front ++ (number ++ back)) = [number] :=
        Text.words_eq_cons_iff.2 ⟨front, back, rfl, Text.white_iff.1 hfront, hnumber.word, hparted,
          Text.words_eq_nil_iff.2 hblank⟩
      rw [quantity?, hwords]
      exact word64?_eq_some_iff.2 ⟨hnumber, hbound⟩
    | @kibibytes front number gap rest n hfront hnumber hsize hbound hgap hne hrest =>
      have hblank := Text.white_iff.1 hgap
      have hunit : words (gap ++ ("kB".toList ++ rest)) = "kB".toList :: words rest :=
        Text.words_eq_cons_iff.2 ⟨gap, rest, rfl, hblank, word_kilo, parted_iff.2 hrest, rfl⟩
      have hwords : words (front ++ (number ++ (gap ++ ("kB".toList ++ rest)))) =
          number :: "kB".toList :: words rest :=
        Text.words_eq_cons_iff.2 ⟨front, _, rfl, Text.white_iff.1 hfront, hnumber.word,
          parted_gap hblank hne _, hunit⟩
      have hn : Text.word64? number = some n := word64?_eq_some_iff.2 ⟨hnumber, by omega⟩
      subst hsize
      rw [quantity?, hwords]
      show (Text.word64? number).bind _ = _
      rw [hn, Option.bind_some, if_pos ⟨rfl, hbound⟩]

end Host
end Telemetry
