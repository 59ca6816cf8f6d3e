import Mathlib.Data.List.SplitBy
import Telemetry.Deflate.Block
import Telemetry.Deflate.Inflate
import Telemetry.Proofs.Coverage

/-! The announcement of a block's two codes. Their lengths are given in steps, which are written in
a code of their own; this always has two symbols at least, so it is complete, and reading the steps
gives the lengths again. -/

namespace Telemetry.Deflate

open List (replicate)

/-! ### Steps -/

/-- A step takes the lengths that have been read to others; both lists have the last length
first. -/
inductive Takes : List ℕ → LengthStep → List ℕ → Prop
  | length {before : List ℕ} {n : ℕ} (hn : n < 16) : Takes before ⟨n, 0⟩ (n :: before)
  | again {before : List ℕ} {last more : ℕ} (hlast : before.head? = some last) (hmore : more < 4) :
    Takes before ⟨16, more⟩ (replicate (3 + more) last ++ before)
  | zeros {before : List ℕ} {more : ℕ} (hmore : more < 8) :
    Takes before ⟨17, more⟩ (replicate (3 + more) 0 ++ before)
  | manyZeros {before : List ℕ} {more : ℕ} (hmore : more < 128) :
    Takes before ⟨18, more⟩ (replicate (11 + more) 0 ++ before)

inductive Runs : List ℕ → List LengthStep → List ℕ → Prop
  | done {before : List ℕ} : Runs before [] before
  | step {before mid result : List ℕ} {s : LengthStep} {steps : List LengthStep}
    (h : Takes before s mid) (hrest : Runs mid steps result) : Runs before (s :: steps) result

namespace Takes

variable {before after : List ℕ} {s : LengthStep}

theorem length_lt (h : Takes before s after) : before.length < after.length := by
  cases h <;> simp only [List.length_cons, List.length_append, List.length_replicate] <;> omega

theorem symbol_lt (h : Takes before s after) : s.symbol < 19 := by
  cases h with
  | length hn => exact hn.trans (by decide)
  | again | zeros | manyZeros => simp

theorem more_lt (h : Takes before s after) : s.moreBits ≤ 24 ∧ s.more < 2 ^ s.moreBits := by
  cases h with
  | length hn =>
    simp only [LengthStep.moreBits]
    split_ifs <;> omega
  | again _ hmore | zeros hmore | manyZeros hmore => simpa [LengthStep.moreBits] using hmore

end Takes

namespace Runs

variable {before mid result : List ℕ} {steps steps' : List LengthStep}

theorem single {s : LengthStep} (h : Takes before s result) : Runs before [s] result := .step h .done

theorem trans (h : Runs before steps mid) (h' : Runs mid steps' result) :
    Runs before (steps ++ steps') result := by
  induction h with
  | done => exact h'
  | step h _ ih => exact .step h (ih h')

theorem length_le (h : Runs before steps result) :
    before.length + steps.length ≤ result.length := by
  induction h with
  | done => exact le_rfl
  | step h _ ih =>
    have := h.length_lt
    rw [List.length_cons]
    omega

theorem forall_steps {P : LengthStep → Prop} (hP : ∀ {before s after}, Takes before s after → P s)
    (h : Runs before steps result) : ∀ s ∈ steps, P s := by
  induction h with
  | done => simp
  | step h _ ih => exact List.forall_mem_cons.2 ⟨hP h, ih⟩

theorem many (P : List ℕ → Prop) {step : LengthStep} {k value : ℕ}
    (hstep : ∀ before, P before → Takes before step (replicate k value ++ before))
    (hkeep : ∀ before, P before → P (replicate k value ++ before)) (n : ℕ) (h : P before) :
    Runs before (replicate n step) (replicate (n * k) value ++ before) := by
  induction n generalizing before with
  | zero => simpa using Runs.done
  | succ n ih =>
    rw [List.replicate_succ, Nat.succ_mul, List.replicate_add, List.append_assoc]
    exact .step (hstep before h) (ih (hkeep before h))

theorem lengths {value : ℕ} (hvalue : value < 16) (n : ℕ) :
    Runs before (replicate n ⟨value, 0⟩) (replicate n value ++ before) := by
  have hmany : Runs before (replicate n ⟨value, 0⟩) (replicate (n * 1) value ++ before) :=
    many (fun _ => True) (fun _ _ => .length hvalue) (fun _ _ => trivial) n trivial
  rwa [Nat.mul_one] at hmany

theorem ofZeros {n : ℕ} (hn : n < 138) :
    Runs before (LengthStep.ofZeros n) (replicate n 0 ++ before) := by
  rw [LengthStep.ofZeros]
  split_ifs with hfew hsome
  · exact lengths (by decide) n
  · have hstep : Takes before ⟨17, n - 3⟩ (replicate (3 + (n - 3)) 0 ++ before) :=
      .zeros (by omega)
    rw [show 3 + (n - 3) = n by omega] at hstep
    exact single hstep
  · have hstep : Takes before ⟨18, n - 11⟩ (replicate (11 + (n - 11)) 0 ++ before) :=
      .manyZeros (by omega)
    rw [show 11 + (n - 11) = n by omega] at hstep
    exact single hstep

theorem ofRepeats {value n : ℕ} (hvalue : value < 16) (hn : n < 7)
    (hbefore : before.head? = some value) :
    Runs before (LengthStep.ofRepeats value n) (replicate n value ++ before) := by
  rw [LengthStep.ofRepeats]
  split_ifs with hfew
  · exact lengths hvalue n
  · have hstep : Takes before ⟨16, n - 3⟩ (replicate (3 + (n - 3)) value ++ before) :=
      .again hbefore (by omega)
    rw [show 3 + (n - 3) = n by omega] at hstep
    exact single hstep

theorem ofRun {value n : ℕ} (hvalue : value < 16) (hn : 0 < n) :
    Runs before (LengthStep.ofRun value n) (replicate n value ++ before) := by
  rw [LengthStep.ofRun]
  split_ifs with hzero
  · subst hzero
    have hmany : Runs before (replicate (n / 138) ⟨18, 127⟩)
        (replicate (n / 138 * 138) 0 ++ before) :=
      many (fun _ => True) (fun _ _ => .manyZeros (by decide)) (fun _ _ => trivial) _ trivial
    have hrest : Runs (replicate (n / 138 * 138) 0 ++ before) (LengthStep.ofZeros (n % 138))
        (replicate (n % 138) 0 ++ (replicate (n / 138 * 138) 0 ++ before)) :=
      ofZeros (Nat.mod_lt n (by decide))
    rw [← List.append_assoc, ← List.replicate_add, Nat.mod_add_div'] at hrest
    exact hmany.trans hrest
  · have hmany : Runs (value :: before) (replicate ((n - 1) / 6) ⟨16, 3⟩)
        (replicate ((n - 1) / 6 * 6) value ++ value :: before) :=
      many (·.head? = some value) (fun _ h => .again h (by decide)) (fun _ _ => rfl) _ rfl
    have hhead : (replicate ((n - 1) / 6 * 6) value ++ value :: before).head? = some value := by
      cases (n - 1) / 6 * 6 <;> rfl
    have hrest := ofRepeats hvalue (Nat.lt_succ_of_lt (Nat.mod_lt (n - 1) (by decide))) hhead
    have hsnoc : replicate (n - 1) value ++ value :: before = replicate n value ++ before := by
      rw [List.append_cons, ← List.replicate_succ', Nat.sub_add_cancel hn]
    rw [← List.append_assoc, ← List.replicate_add, Nat.mod_add_div', hsnoc] at hrest
    exact .step (.length hvalue) (hmany.trans hrest)

end Runs

theorem exists_run {lengths run : List ℕ} (h : run ∈ lengths.splitBy (· == ·)) :
    ∃ value n, 0 < n ∧ run = replicate n value ∧ value ∈ lengths := by
  obtain ⟨value, rest, rfl⟩ := List.exists_cons_of_ne_nil (List.ne_nil_of_mem_splitBy h)
  have hchain := List.isChain_of_mem_splitBy h
  simp only [beq_iff_eq] at hchain
  refine ⟨value, rest.length + 1, Nat.succ_pos _, ?_, ?_⟩
  · rw [List.replicate_succ, ← List.isChain_cons_eq_iff_eq_replicate.1 hchain]
  · rw [← List.flatten_splitBy (· == ·) lengths]
    exact List.mem_flatten.2 ⟨_, h, List.mem_cons_self⟩

theorem runs_ofLengths {lengths : List ℕ} (h : ∀ n ∈ lengths, n < 16) (before : List ℕ) :
    Runs before (LengthStep.ofLengths lengths) (lengths.reverse ++ before) := by
  have hruns : ∀ runs : List (List ℕ), (∀ run ∈ runs, ∃ value n, 0 < n ∧ run = replicate n value ∧
      value ∈ lengths) → ∀ before,
      Runs before (runs.flatMap fun run => LengthStep.ofRun (run.headD 0) run.length)
        (runs.flatten.reverse ++ before) := by
    intro runs
    induction runs with
    | nil => exact fun _ _ => .done
    | cons run runs ih =>
      intro hall before
      obtain ⟨⟨value, n, hn, rfl, hvalue⟩, hrest⟩ := List.forall_mem_cons.1 hall
      have hhead : (replicate n value).headD 0 = value := by
        cases n with
        | zero => omega
        | succ n => rfl
      rw [List.flatMap_cons, hhead, List.length_replicate, List.flatten_cons, List.reverse_append,
        List.reverse_replicate, List.append_assoc]
      exact (Runs.ofRun (h value hvalue) hn).trans (ih hrest _)
  have := hruns _ (fun run => exists_run) before
  rwa [List.flatten_splitBy] at this

/-- Each length has a step of its own; only zeros share one of the last two. -/
theorem exists_step {lengths : List ℕ} {value : ℕ} (h : value ∈ lengths) :
    ∃ s ∈ LengthStep.ofLengths lengths, s.symbol = value ∨ value = 0 ∧ 16 < s.symbol := by
  rw [← List.flatten_splitBy (· == ·) lengths] at h
  obtain ⟨run, hrun, hvalue⟩ := List.mem_flatten.1 h
  obtain ⟨value', n, hn, rfl, -⟩ := exists_run hrun
  obtain rfl := List.eq_of_mem_replicate hvalue
  have hstep : ∃ s ∈ LengthStep.ofRun value n, s.symbol = value ∨ value = 0 ∧ 16 < s.symbol := by
    rw [LengthStep.ofRun]
    split_ifs with hzero
    · rcases Nat.eq_zero_or_pos (n / 138) with hfew | hmany
      · have hrest : n % 138 = n := by omega
        rw [hfew, hrest, LengthStep.ofZeros]
        split_ifs
        · exact ⟨⟨0, 0⟩, by simp [hn.ne'], .inl hzero.symm⟩
        · exact ⟨_, List.mem_append_right _ (List.mem_singleton_self _), .inr ⟨hzero, by simp⟩⟩
        · exact ⟨_, List.mem_append_right _ (List.mem_singleton_self _), .inr ⟨hzero, by simp⟩⟩
      · exact ⟨⟨18, 127⟩, List.mem_append_left _ (List.mem_replicate.2 ⟨hmany.ne', rfl⟩),
          .inr ⟨hzero, by simp⟩⟩
    · exact ⟨⟨value, 0⟩, List.mem_cons_self, .inl rfl⟩
  obtain ⟨s, hs, hsymbol⟩ := hstep
  refine ⟨s, List.mem_flatMap.2 ⟨_, hrun, ?_⟩, hsymbol⟩
  obtain ⟨n, rfl⟩ := Nat.exists_eq_succ_of_ne_zero hn.ne'
  rwa [List.length_replicate]

/-- A list of more than seven lengths that are not all zero has steps of two symbols. -/
theorem exists_two_symbols {lengths : List ℕ} (hlength : 7 < lengths.length) {value : ℕ}
    (hshort : value < 16) (hvalue : value ∈ lengths) (hne : value ≠ 0) :
    ∃ s ∈ LengthStep.ofLengths lengths, ∃ s' ∈ LengthStep.ofLengths lengths,
      s.symbol ≠ s'.symbol := by
  obtain ⟨s, hs, hsymbol⟩ := exists_step hvalue
  have hs' : s.symbol = value := hsymbol.resolve_right fun h => hne h.1
  by_cases hall : ∀ other ∈ lengths, other = value
  · -- a single run, in which the length is repeated
    obtain ⟨n, rfl⟩ : ∃ n, lengths = replicate n value :=
      ⟨_, List.eq_replicate_iff.2 ⟨rfl, hall⟩⟩
    rw [List.length_replicate] at hlength
    have hrun : (replicate n value).splitBy (· == ·) = [replicate n value] :=
      List.splitBy_of_isChain (List.ne_nil_of_mem hvalue)
        (List.isChain_replicate_of_rel n (beq_self_eq_true value))
    have hagain : ⟨16, 3⟩ ∈ LengthStep.ofRun value n := by
      rw [LengthStep.ofRun, if_neg hne]
      refine List.mem_cons_of_mem _ (List.mem_append_left _ (List.mem_replicate.2 ⟨?_, rfl⟩))
      omega
    refine ⟨s, hs, ⟨16, 3⟩, ?_, by rw [hs']; simp only; omega⟩
    obtain ⟨m, hm⟩ := Nat.exists_eq_succ_of_ne_zero (Nat.ne_zero_of_lt hlength)
    rw [LengthStep.ofLengths, hrun, List.flatMap_singleton, List.length_replicate]
    subst hm
    exact hagain
  · push Not at hall
    obtain ⟨other, hother, hdiffers⟩ := hall
    obtain ⟨s', hs'', hsymbol'⟩ := exists_step hother
    refine ⟨s, hs, s', hs'', ?_⟩
    rcases hsymbol' with h | ⟨-, h⟩ <;> omega

/-- The bits of a step: its word and how much more it repeats. -/
def stepBits (lengths : List ℕ) (s : LengthStep) : List Bool :=
  codeword lengths s.symbol ++ lowBits s.moreBits s.more

section

variable {data : ByteArray} {pos fuel : ℕ} {words before result : List ℕ}
  {steps : List LengthStep}

theorem codeLengths_step {after : List ℕ} {s : LengthStep} {wanted : ℕ} (hfits : Fits words)
    (h : Takes before s after) (hsymbol : words.getD s.symbol 0 ≠ 0)
    (hbits : BitsAt data pos (stepBits words s)) (hwanted : before.length < wanted) :
    codeLengths data (Code.ofLengths words) wanted (fuel + 1) before pos =
      codeLengths data (Code.ofLengths words) wanted fuel after
        (pos + (stepBits words s).length) := by
  have hmore := hbits.right.bits?_eq h.more_lt.2
  rw [length_codeword] at hmore
  rw [codeLengths, if_neg hwanted.ne', if_neg hwanted.not_gt,
    decode_codeword hfits hsymbol hbits.left, stepBits, List.length_append, length_codeword,
    length_lowBits, ← Nat.add_assoc]
  cases h with
  | @length n hn =>
    have hnone : (⟨n, 0⟩ : LengthStep).moreBits = 0 := by
      rw [LengthStep.moreBits, if_neg, if_neg, if_neg] <;> simp only <;> omega
    simp [hn, hnone]
  | again hlast _ =>
    simp only [LengthStep.moreBits] at hmore ⊢
    simp_all
  | zeros _ | manyZeros _ =>
    simp only [LengthStep.moreBits] at hmore ⊢
    simp_all

theorem codeLengths_eq (hfits : Fits words) (h : Runs before steps result)
    (hsymbols : ∀ s ∈ steps, words.getD s.symbol 0 ≠ 0) (hfuel : steps.length < fuel)
    (hbits : BitsAt data pos (steps.flatMap (stepBits words))) :
    codeLengths data (Code.ofLengths words) result.length fuel before pos =
      some (result.reverse, pos + (steps.flatMap (stepBits words)).length) := by
  induction h generalizing fuel pos with
  | done =>
    obtain ⟨fuel, rfl⟩ := Nat.exists_eq_succ_of_ne_zero (Nat.ne_zero_of_lt hfuel)
    rw [codeLengths, if_pos rfl]
    rfl
  | step h hrest ih =>
    obtain ⟨fuel, rfl⟩ := Nat.exists_eq_succ_of_ne_zero (Nat.ne_zero_of_lt hfuel)
    obtain ⟨hsymbol, hsymbols⟩ := List.forall_mem_cons.1 hsymbols
    rw [List.flatMap_cons] at hbits ⊢
    rw [codeLengths_step hfits h hsymbol hbits.left
        (h.length_lt.trans_le (Nat.le_of_add_right_le hrest.length_le)),
      ih hsymbols (Nat.lt_of_succ_lt_succ hfuel) hbits.right, List.length_append, Nat.add_assoc]

end

/-! ### Symbols that occur -/

theorem occurrences_eq (n : ℕ) (symbols : Array ℕ) :
    occurrences n symbols =
      symbols.toList.foldl (fun counts s => counts.modify s (· + 1)) (replicate n 0) := by
  have hlist (l : List ℕ) (counts : Array ℕ) :
      (l.foldl (fun counts s => counts.modify s (· + 1)) counts).toList =
        l.foldl (fun counts s => counts.modify s (· + 1)) counts.toList := by
    induction l generalizing counts with
    | nil => rfl
    | cons s l ih => rw [List.foldl_cons, List.foldl_cons, ih, Array.toList_modify]
  rw [occurrences, ← Array.foldl_toList, hlist, Array.toList_replicate]

theorem foldl_modify (l counts : List ℕ) :
    (l.foldl (fun counts s => counts.modify s (· + 1)) counts).length = counts.length ∧
    ∀ s < counts.length, (l.foldl (fun counts s => counts.modify s (· + 1)) counts).getD s 0 =
      counts.getD s 0 + l.count s := by
  induction l generalizing counts with
  | nil => exact ⟨rfl, fun _ _ => rfl⟩
  | cons t l ih =>
    obtain ⟨hlength, hcount⟩ := ih (counts.modify t (· + 1))
    rw [List.length_modify] at hlength hcount
    refine ⟨hlength, fun s hs => ?_⟩
    rw [List.foldl_cons, hcount s hs, List.count_cons, List.getD_eq_getElem?_getD,
      List.getD_eq_getElem?_getD, List.getElem?_modify, List.getElem?_eq_getElem hs]
    simp only [beq_iff_eq]
    split_ifs <;> simp only [Option.map_eq_map, Option.map_some, Option.getD_some] <;> omega

theorem length_occurrences (n : ℕ) (symbols : Array ℕ) : (occurrences n symbols).length = n := by
  rw [occurrences_eq, (foldl_modify _ _).1, List.length_replicate]

theorem getD_occurrences {n s : ℕ} (symbols : Array ℕ) (hs : s < n) :
    (occurrences n symbols).getD s 0 = symbols.toList.count s := by
  rw [occurrences_eq, (foldl_modify _ _).2 s (by rwa [List.length_replicate])]
  simp

theorem exists_zeros (least : ℕ) (lengths : List ℕ) :
    ∃ k, lengths = trimmed least lengths ++ replicate k 0 := by
  obtain ⟨m, hm, htrimmed⟩ : ∃ m,
      lengths.length - (lengths.reverse.takeWhile (· == 0)).length ≤ m ∧
        trimmed least lengths = lengths.take m := ⟨_, Nat.le_max_right _ _, rfl⟩
  refine ⟨(lengths.drop m).length, ?_⟩
  have hzeros : ∀ n ∈ lengths.drop m, n = 0 := by
    intro n hn
    have hend : lengths.drop (lengths.length - (lengths.reverse.takeWhile (· == 0)).length) =
        (lengths.reverse.takeWhile (· == 0)).reverse := by
      conv_rhs => rw [List.prefix_iff_eq_take.1 (List.takeWhile_prefix (· == 0))]
      rw [List.reverse_take, List.reverse_reverse, List.length_reverse]
    have hmem := List.drop_subset_drop_left lengths hm hn
    rw [hend, List.mem_reverse] at hmem
    exact beq_iff_eq.1 (List.all_eq_true.1 List.all_takeWhile n hmem)
  rw [htrimmed, ← List.eq_replicate_iff.2 ⟨rfl, hzeros⟩, List.take_append_drop]

theorem length_trimmed {least : ℕ} {lengths : List ℕ} (h : least ≤ lengths.length) :
    least ≤ (trimmed least lengths).length ∧ (trimmed least lengths).length ≤ lengths.length := by
  rw [trimmed, List.length_take]
  omega

section

variable (lengths : List ℕ) (k : ℕ)

theorem countsOf_append_zeros : countsOf (lengths ++ replicate k 0) = countsOf lengths := by
  refine List.map_congr_left fun i _ => ?_
  rw [List.count_append, List.count_replicate, if_neg (by simp), Nat.add_zero]

theorem getD_append_zeros (s : ℕ) : (lengths ++ replicate k 0).getD s 0 = lengths.getD s 0 := by
  rcases Nat.lt_or_ge s lengths.length with h | h
  · rw [List.getD_append _ _ _ _ h]
  · rw [List.getD_append_right _ _ _ _ h, List.getD_eq_default lengths _ h]
    simp

end

/-- Lengths of a code in which these symbols can be written and read. -/
structure Coded (lengths symbols : List ℕ) : Prop where
  fits : Fits lengths
  usable : (Code.ofLengths lengths).isUsable
  words : ∀ s ∈ symbols, lengths.getD s 0 ≠ 0

theorem Coded.trimmed {lengths symbols : List ℕ} (h : Coded lengths symbols) (least : ℕ) :
    Coded (trimmed least lengths) symbols := by
  obtain ⟨k, hk⟩ := exists_zeros least lengths
  generalize Deflate.trimmed least lengths = short at hk ⊢
  subst hk
  obtain ⟨⟨hcover, hshort⟩, husable, hwords⟩ := h
  rw [countsOf_append_zeros] at hcover
  have hshort' : ∀ n ∈ short, n ≤ Code.maxLength := fun n hn =>
    hshort n (List.mem_append_left _ hn)
  simp only [getD_append_zeros] at hwords
  refine ⟨⟨hcover, hshort'⟩, ?_, hwords⟩
  have hcounts : (Code.ofLengths (short ++ replicate k 0)).counts =
      (Code.ofLengths short).counts := countsOf_append_zeros short k
  rw [Code.isUsable, Code.isComplete, Code.coverage, size_symbols hshort, hcounts,
    List.countP_append] at husable
  have hnone : (replicate k 0).countP (· ≠ 0) = 0 := List.countP_eq_zero.2 (by simp)
  rw [hnone, Nat.add_zero] at husable
  rwa [Code.isUsable, Code.isComplete, Code.coverage, size_symbols hshort']

theorem coded_lengthsFor {limit n : ℕ} (symbols : Array ℕ) (hlimit : 0 < limit)
    (hmax : limit ≤ Code.maxLength) (hroom : n ≤ 2 ^ limit) (hsymbols : ∀ s ∈ symbols, s < n) :
    Coded (lengthsFor limit (occurrences n symbols)) symbols.toList := by
  have h : Allotted limit (occurrences n symbols) (lengthsFor limit (occurrences n symbols)) :=
    allotted hlimit (by rwa [length_occurrences])
  refine ⟨h.fits hmax, h.isUsable hmax, fun s hs => (h.occurs s).2 ?_⟩
  rw [getD_occurrences symbols (hsymbols s (Array.mem_toList_iff.1 hs))]
  exact (List.count_pos_iff.2 hs).ne'

theorem two_le_countP {l : List ℕ} {i j : ℕ} (hij : i ≠ j) (hi : l.getD i 0 ≠ 0)
    (hj : l.getD j 0 ≠ 0) : 2 ≤ l.countP (· ≠ 0) := by
  rw [← mem_present] at hi hj
  rw [← length_present, ← List.length_map (f := Prod.snd)]
  generalize (present l).map (·.2) = symbols at *
  match symbols with
  | [] => simp at hi
  | [symbol] =>
    rw [List.mem_singleton] at hi hj
    exact absurd (hi.trans hj.symm) hij
  | _ :: _ :: _ => simp

/-! ### Announcements -/

/-- The steps that announce two codes. -/
def stepsFor (literals distances : List ℕ) : List LengthStep :=
  LengthStep.ofLengths (literals ++ distances)

def stepLengths (literals distances : List ℕ) : List ℕ :=
  lengthsFor 7 (occurrences 19 ((stepsFor literals distances).map LengthStep.symbol).toArray)

def givenLengths (literals distances : List ℕ) : List ℕ :=
  trimmed 4 (lengthOrder.map fun symbol => (stepLengths literals distances).getD symbol 0)

def codesBits (literals distances : List ℕ) : List Bool :=
  lowBits 5 (literals.length - 257) ++ lowBits 5 (distances.length - 1) ++
    lowBits 4 ((givenLengths literals distances).length - 4) ++
    (givenLengths literals distances).flatMap (lowBits 3) ++
    (stepsFor literals distances).flatMap (stepBits (stepLengths literals distances))

theorem triples?_eq {data : ByteArray} {given : List ℕ} {pos : ℕ} (hgiven : ∀ n ∈ given, n < 2 ^ 3)
    (h : BitsAt data pos (given.flatMap (lowBits 3))) :
    triples? data given.length pos = some given := by
  induction given generalizing pos with
  | nil => rfl
  | cons n given ih =>
    obtain ⟨hn, hgiven⟩ := List.forall_mem_cons.1 hgiven
    rw [List.flatMap_cons] at h
    have hrest := ih hgiven h.right
    rw [length_lowBits] at hrest
    rw [List.length_cons, triples?, h.left.bits?_eq hn, hrest]
    rfl

theorem find?_zip_eq {f : ℕ → ℕ} {keys given : List ℕ} {k key : ℕ}
    (hgiven : keys.map f = given ++ replicate k 0) (hkey : key ∈ keys) :
    ((keys.zip given).find? (·.1 == key)).elim 0 (·.2) = f key := by
  induction keys generalizing given with
  | nil => simp at hkey
  | cons first keys ih =>
    cases given with
    | nil =>
      have hzero : f key ∈ replicate k 0 := by
        rw [← List.nil_append (replicate k 0), ← hgiven]
        exact List.mem_map_of_mem hkey
      rw [List.zip_nil_right, List.find?_nil, List.eq_of_mem_replicate hzero]
      rfl
    | cons n given =>
      obtain ⟨hn, hrest⟩ := List.cons.inj hgiven
      rw [List.zip_cons_cons, List.find?_cons]
      by_cases hfirst : first = key
      · simp [hfirst, ← hn]
      · simp only [beq_false_of_ne hfirst]
        exact ih hrest ((List.mem_cons.1 hkey).resolve_left (Ne.symm hfirst))

section

variable {literals distances : List ℕ}

/-- Two codes that can be announced; the first has a word for the end of a block. -/
structure Announced (literals distances : List ℕ) : Prop where
  forLiterals : Coded literals [256]
  forDistances : Coded distances []
  leastLiterals : 257 ≤ literals.length
  mostLiterals : literals.length ≤ 286
  leastDistances : 1 ≤ distances.length
  mostDistances : distances.length ≤ 30

namespace Announced

theorem short (h : Announced literals distances) : ∀ n ∈ literals ++ distances, n < 16 := by
  intro n hn
  rcases List.mem_append.1 hn with hn | hn
  · exact Nat.lt_succ_of_le (h.forLiterals.fits.short n hn)
  · exact Nat.lt_succ_of_le (h.forDistances.fits.short n hn)

theorem runs (h : Announced literals distances) :
    Runs [] (stepsFor literals distances) (literals ++ distances).reverse := by
  have := runs_ofLengths h.short []
  rwa [List.append_nil] at this

theorem symbol_lt (h : Announced literals distances) :
    ∀ s ∈ ((stepsFor literals distances).map LengthStep.symbol).toArray, s < 19 := by
  intro s hs
  obtain ⟨step, hstep, rfl⟩ := List.mem_map.1 (Array.mem_toList_iff.2 hs)
  exact h.runs.forall_steps Takes.symbol_lt step hstep

theorem steps (h : Announced literals distances) : Coded (stepLengths literals distances)
    ((stepsFor literals distances).map LengthStep.symbol) :=
  coded_lengthsFor _ (by decide) (by decide) (by decide) h.symbol_lt

/-- The steps have two symbols at least. -/
theorem isComplete (h : Announced literals distances) :
    (Code.ofLengths (stepLengths literals distances)).isComplete := by
  have hend := h.forLiterals.words 256 (List.mem_singleton_self _)
  have hmem : literals.getD 256 0 ∈ literals ++ distances := by
    rw [List.getD_eq_getElem _ _ h.leastLiterals]
    exact List.mem_append_left _ (List.getElem_mem _)
  have hlength : 7 < (literals ++ distances).length := by
    have := h.leastLiterals
    rw [List.length_append]
    omega
  obtain ⟨s, hs, s', hs', hdiffer⟩ := exists_two_symbols hlength (h.short _ hmem) hmem hend
  have hoccurs {s : LengthStep} (hs : s ∈ stepsFor literals distances) : (occurrences 19
      ((stepsFor literals distances).map LengthStep.symbol).toArray).getD s.symbol 0 ≠ 0 := by
    have hmem := List.mem_map_of_mem (f := LengthStep.symbol) hs
    rw [getD_occurrences _ (h.runs.forall_steps Takes.symbol_lt s hs)]
    exact (List.count_pos_iff.2 hmem).ne'
  exact (allotted (by decide) (by rw [length_occurrences]; decide)).isComplete (by decide)
    (two_le_countP hdiffer (hoccurs hs) (hoccurs hs'))

theorem given_lt (literals distances : List ℕ) :
    ∀ n ∈ givenLengths literals distances, n < 2 ^ 3 := by
  intro n hn
  obtain ⟨s, -, rfl⟩ := List.mem_map.1 (List.mem_of_mem_take hn)
  have hallotted : Allotted 7 (occurrences 19
      ((stepsFor literals distances).map LengthStep.symbol).toArray)
      (stepLengths literals distances) :=
    allotted (by decide) (by rw [length_occurrences]; decide)
  rcases Nat.lt_or_ge s (stepLengths literals distances).length with hs | hs
  · rw [List.getD_eq_getElem _ _ hs]
    exact Nat.lt_succ_of_le (hallotted.short _ (List.getElem_mem hs))
  · rw [List.getD_eq_default _ _ hs]
    decide

theorem length_given (literals distances : List ℕ) : 4 ≤ (givenLengths literals distances).length ∧
    (givenLengths literals distances).length ≤ 19 := by
  have hleast : 4 ≤ (lengthOrder.map fun s => (stepLengths literals distances).getD s 0).length := by
    rw [List.length_map]
    decide
  have hmost := length_trimmed hleast
  rwa [List.length_map] at hmost

theorem writes_putCodes (h : Announced literals distances) (w : BitWriter) :
    w.Writes (w.putCodes literals distances) (codesBits literals distances) := by
  have hliterals := h.mostLiterals
  have hdistances := h.mostDistances
  have hgiven := length_given literals distances
  refine ((((BitWriter.writes_put w ?_ ?_).trans (BitWriter.writes_put _ ?_ ?_)).trans
    (BitWriter.writes_put _ ?_ ?_)).trans (.foldl (fun n hn w => ?_) _)).trans
      (.foldl (fun s hs w => ?_) _)
  any_goals omega
  · exact BitWriter.writes_put w (by decide) (given_lt literals distances n hn)
  · obtain ⟨hbits, hmore⟩ := h.runs.forall_steps Takes.more_lt s hs
    exact (BitWriter.writes_putSymbol h.steps.fits s.symbol w).trans
      (BitWriter.writes_put _ hbits hmore)

theorem map_find?_given (literals distances : List ℕ) :
    ((List.range 19).map fun i =>
      ((lengthOrder.zip (givenLengths literals distances)).find? (·.1 == i)).elim 0 (·.2)) =
        stepLengths literals distances := by
  obtain ⟨k, hk⟩ : ∃ k, lengthOrder.map (fun i => (stepLengths literals distances).getD i 0) =
      givenLengths literals distances ++ replicate k 0 := exists_zeros _ _
  have hlength : (stepLengths literals distances).length = 19 :=
    (allotted (by decide) (by rw [length_occurrences]; decide)).length.trans
      (length_occurrences _ _)
  have hall : ∀ i < 19, i ∈ lengthOrder := by decide
  refine List.ext_getElem (by simp [hlength]) fun i hi hi' => ?_
  rw [List.getElem_map, List.getElem_range,
    find?_zip_eq hk (hall i (by simpa using hi)), List.getD_eq_getElem _ _ hi']

theorem codes?_eq {data : ByteArray} {pos : ℕ} (h : Announced literals distances)
    (hbits : BitsAt data pos (codesBits literals distances)) :
    codes? data pos = some (Code.ofLengths literals, Code.ofLengths distances,
      pos + (codesBits literals distances).length) := by
  have hliterals := h.mostLiterals
  have hdistances := h.mostDistances
  have hgiven := length_given literals distances
  have hlengths := hbits.left.left.left.left.bits?_eq (by omega)
  have hlengths' := hbits.left.left.left.right.bits?_eq (by omega)
  have hnumber := hbits.left.left.right.bits?_eq (by omega)
  have htriples := triples?_eq (given_lt literals distances) hbits.left.right
  have hfuel := h.runs.length_le
  simp only [List.length_nil, List.length_reverse, List.length_append, Nat.zero_add] at hfuel
  have hsteps := codeLengths_eq h.steps.fits h.runs
    (fun s hs => h.steps.words _ (List.mem_map_of_mem hs)) (Nat.lt_add_one_of_le hfuel) hbits.right
  have hsize : ((givenLengths literals distances).flatMap (lowBits 3)).length =
      3 * (givenLengths literals distances).length := by
    simp [List.length_flatMap, Nat.mul_comm]
  have hend : pos + (codesBits literals distances).length = pos + 14 +
      3 * (givenLengths literals distances).length + ((stepsFor literals distances).flatMap
        (stepBits (stepLengths literals distances))).length := by
    simp only [codesBits, List.length_append, length_lowBits, hsize]
    omega
  simp only [List.length_append, length_lowBits, List.length_reverse, List.reverse_reverse,
    hsize, Nat.reduceAdd, ← Nat.add_assoc] at hlengths hlengths' hnumber htriples hsteps
  simp only [codes?, hlengths, hlengths', hnumber, Option.bind_eq_bind, Option.bind_some,
    Nat.add_sub_cancel' h.leastLiterals, Nat.add_sub_cancel' h.leastDistances,
    Nat.add_sub_cancel' hgiven.1, htriples, map_find?_given, h.isComplete]
  rw [if_neg (by omega)]
  simp only [hsteps, hend, Option.bind_some, Bool.not_true, Bool.false_eq_true, if_false,
    List.take_left, List.drop_left, h.forLiterals.usable, h.forDistances.usable, Bool.and_self,
    if_true]

end Announced
end
end Telemetry.Deflate
