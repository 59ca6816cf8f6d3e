import Mathlib.Data.List.Basic
import Mathlib.Data.List.TakeDrop
import Mathlib.Data.List.TakeWhile
import Mathlib.Data.List.DropRight
import Telemetry.Text.Blank
import Telemetry.Text.Split

/-! Texts cut at a separator or trimmed of white space. The parts have no separator in them and make
up the text with one between each two, so a text in two parts is cut at the only one it has. -/

namespace Telemetry.Text

theorem intercalate_cons {α : Type} (separator x : List α) (xs : List (List α)) :
    separator.intercalate (x :: xs) = x ++ xs.flatMap (separator ++ ·) := by
  induction xs generalizing x with
  | nil => simp [List.intercalate]
  | cons y xs ih =>
    have hstep : separator.intercalate (x :: y :: xs) =
        x ++ (separator ++ separator.intercalate (y :: xs)) := by simp [List.intercalate]
    rw [hstep, ih y, List.flatMap_cons, List.append_assoc separator]

theorem intercalate_concat {α : Type} (separator x : List α) (xs : List (List α)) :
    separator.intercalate (xs ++ [x]) = xs.flatMap (· ++ separator) ++ x := by
  induction xs with
  | nil => simp [List.intercalate]
  | cons y xs ih =>
    obtain ⟨z, zs, hz⟩ := List.exists_cons_of_ne_nil (List.append_ne_nil_of_right_ne_nil xs
      (List.cons_ne_nil x []))
    have hstep : separator.intercalate (y :: (xs ++ [x])) =
        y ++ (separator ++ separator.intercalate (xs ++ [x])) := by
      rw [hz]
      simp [List.intercalate]
    rw [List.cons_append, hstep, ih, List.flatMap_cons]
    simp only [List.append_assoc]

section

variable {α : Type} [DecidableEq α]

theorem splitFrom_eq (separator : α) (part cs : List α) :
    splitFrom separator part cs = List.splitOnPPrepend (· == separator) cs part := by
  induction cs generalizing part with
  | nil => rfl
  | cons c cs ih =>
    rw [splitFrom, List.splitOnPPrepend_cons_eq_if, ih, ih, List.splitOnPPrepend_nil_right]
    simp only [beq_iff_eq]

theorem splitOn_eq (separator : α) (cs : List α) : splitOn separator cs = cs.splitOn separator :=
  splitFrom_eq separator [] cs

theorem not_mem_of_mem_splitFrom {separator : α} {part cs p : List α} (hpart : separator ∉ part)
    (h : p ∈ splitFrom separator part cs) : separator ∉ p := by
  induction cs generalizing part with
  | nil =>
    rw [List.mem_singleton.1 h]
    simpa using hpart
  | cons c cs ih =>
    rw [splitFrom] at h
    split_ifs at h with hc
    · rcases List.mem_cons.1 h with rfl | h
      · simpa using hpart
      · exact ih (by simp) h
    · exact ih (by simp [hpart, Ne.symm hc]) h

theorem splitOn_eq_pair_iff {separator : α} {cs before after : List α} :
    splitOn separator cs = [before, after] ↔
      cs = before ++ separator :: after ∧ separator ∉ before ∧ separator ∉ after := by
  constructor
  · intro h
    have parts {p : List α} (hp : p ∈ [before, after]) : separator ∉ p :=
      not_mem_of_mem_splitFrom List.not_mem_nil (h ▸ hp : p ∈ splitOn separator cs)
    refine ⟨?_, parts (by simp), parts (by simp)⟩
    rw [splitOn_eq] at h
    have whole : [separator].intercalate (cs.splitOn separator) = cs :=
      List.intercalate_splitOn separator
    rw [← whole, h]
    simp [List.intercalate]
  · rintro ⟨rfl, hbefore, hafter⟩
    have whole : before ++ separator :: after = [separator].intercalate [before, after] := by
      simp [List.intercalate]
    rw [splitOn_eq, whole]
    exact List.splitOn_intercalate separator (by simp [hbefore, hafter]) (by simp)

theorem splitOnce?_eq_some_iff {separator : α} {cs before after : List α} :
    splitOnce? separator cs = some (before, after) ↔
      cs = before ++ separator :: after ∧ separator ∉ before := by
  have hcs : cs = cs.takeWhile (· ≠ separator) ++ cs.dropWhile (· ≠ separator) :=
    List.takeWhile_append_dropWhile.symm
  rw [splitOnce?, List.span_eq_takeWhile_dropWhile]
  constructor
  · intro h
    split at h
    · next first second rest hspan =>
      obtain ⟨rfl, hrest⟩ := Prod.mk.inj hspan
      obtain ⟨rfl, rfl⟩ := Prod.mk.inj (Option.some.inj h)
      have hsecond : second = separator := by
        have hnot := List.head?_dropWhile_not (· ≠ separator) cs
        rw [hrest] at hnot
        simpa using hnot
      rw [hrest, hsecond] at hcs
      exact ⟨hcs, fun hmem => by simpa using List.mem_takeWhile_imp hmem⟩
    · cases h
  · rintro ⟨rfl, hbefore⟩
    have hall : ∀ c ∈ before, decide (c ≠ separator) = true := by
      intro c hc
      simpa using fun h : c = separator => hbefore (h ▸ hc)
    rw [List.takeWhile_append_of_pos hall, List.dropWhile_append_of_pos hall]
    simp

end

theorem trim_eq_nil_iff {cs : List Char} : trim cs = [] ↔ ∀ c ∈ cs, isBlank c := by
  induction cs with
  | nil => simp [trim, trimStart, trimEnd]
  | cons c cs ih =>
    cases hc : isBlank c with
    | true =>
      have skip : trim (c :: cs) = trim cs := by simp [trim, trimStart, hc]
      rw [skip, ih]
      simp [hc]
    | false =>
      have start : trimStart (c :: cs) = c :: cs := by simp [trimStart, hc]
      rw [trim, start, trimEnd, List.reverse_eq_nil_iff, List.dropWhile_eq_nil_iff]
      simp [hc]

structure Bare (cs : List Char) : Prop where
  head : ∀ c ∈ cs.head?, isBlank c = false
  last : ∀ c ∈ cs.getLast?, isBlank c = false

theorem dropWhile_blank {blanks cs : List Char} (hblanks : ∀ c ∈ blanks, isBlank c)
    (hcs : ∀ c ∈ cs.head?, isBlank c = false) : (blanks ++ cs).dropWhile isBlank = cs := by
  rw [List.dropWhile_append_of_pos hblanks]
  rcases cs with _ | ⟨c, cs⟩
  · rfl
  · exact List.dropWhile_cons_of_neg (by simp [hcs c rfl])

theorem Bare.trim_eq {cs front back : List Char} (h : Bare cs) (hfront : ∀ c ∈ front, isBlank c)
    (hback : ∀ c ∈ back, isBlank c) : trim (front ++ (cs ++ back)) = cs := by
  rcases cs with _ | ⟨c, cs⟩
  · exact trim_eq_nil_iff.2 fun c hc => (List.mem_append.1 hc).elim (hfront c) (hback c)
  · have hstart : trimStart (front ++ (c :: cs ++ back)) = c :: cs ++ back :=
      dropWhile_blank hfront h.head
    have hend : (back.reverse ++ (c :: cs).reverse).dropWhile isBlank = (c :: cs).reverse :=
      dropWhile_blank (by simpa using hback) (by rw [List.head?_reverse]; exact h.last)
    rw [trim, hstart, trimEnd, List.reverse_append, hend, List.reverse_reverse]

theorem exists_trim (cs : List Char) : ∃ front back, (∀ c ∈ front, isBlank c) ∧
    (∀ c ∈ back, isBlank c) ∧ cs = front ++ (trim cs ++ back) := by
  refine ⟨cs.takeWhile isBlank, List.rtakeWhile isBlank (trimStart cs),
    fun c => List.mem_takeWhile_imp, fun c hc => List.mem_takeWhile_imp (List.mem_reverse.1 hc), ?_⟩
  have hend : trim cs ++ List.rtakeWhile isBlank (trimStart cs) = trimStart cs :=
    List.rdropWhile_append_rtakeWhile ..
  rw [hend]
  exact List.takeWhile_append_dropWhile.symm

theorem isBlank_head_dropWhile {cs : List Char} {c : Char}
    (hc : c ∈ (cs.dropWhile isBlank).head?) : isBlank c = false := by
  have hnot := List.head?_dropWhile_not isBlank cs
  rwa [Option.mem_def.1 hc] at hnot

theorem bare_trim (cs : List Char) : Bare (trim cs) where
  head := by
    intro c hc
    obtain ⟨back, hback⟩ : trim cs <+: trimStart cs := List.rdropWhile_prefix isBlank _
    have hstart : c ∈ (trimStart cs).head? := by
      rw [← hback, List.head?_append, Option.mem_def.1 hc]
      rfl
    exact isBlank_head_dropWhile hstart
  last := by
    intro c hc
    rw [trim, trimEnd, List.getLast?_reverse] at hc
    exact isBlank_head_dropWhile hc

theorem trim_eq_iff {cs core : List Char} : trim cs = core ↔ Bare core ∧ ∃ front back,
    (∀ c ∈ front, isBlank c) ∧ (∀ c ∈ back, isBlank c) ∧ cs = front ++ (core ++ back) := by
  constructor
  · rintro rfl
    exact ⟨bare_trim cs, exists_trim cs⟩
  · rintro ⟨hcore, front, back, hfront, hback, rfl⟩
    exact hcore.trim_eq hfront hback

theorem trim_eq_self {cs : List Char} (h : ∀ c ∈ cs, isBlank c = false) : trim cs = cs :=
  trim_eq_iff.2 ⟨⟨fun c hc => h c (List.mem_of_mem_head? hc),
    fun c hc => h c (List.mem_of_getLast? hc)⟩, [], [], nofun, nofun, (List.append_nil cs).symm⟩

end Telemetry.Text
