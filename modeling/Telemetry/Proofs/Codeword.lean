import Mathlib.Data.List.Count
import Telemetry.Proofs.Bits

/-! Codewords of canonical codes. The words of one length are consecutive numbers and come behind
twice the words that are shorter, so what is read of a longer word is never one of these: if the
code does not cover more than all bit strings, each of its words is read as its symbol. -/

namespace Telemetry.Deflate

/-- How many words there are of each length. -/
def countsOf (lengths : List ℕ) : List ℕ :=
  (List.range Code.maxLength).map fun i => lengths.count (i + 1)

/-- The number behind the words of the given counts, the first of them of one bit more than `n` is
long. -/
def behind (n : ℕ) (counts : List ℕ) : ℕ := counts.foldl (fun n k => 2 * n + k) n

theorem behind_append (n : ℕ) (as bs : List ℕ) : behind n (as ++ bs) = behind (behind n as) bs :=
  List.foldl_append

theorem le_behind (n : ℕ) (counts : List ℕ) : 2 ^ counts.length * n ≤ behind n counts := by
  induction counts generalizing n with
  | nil => rw [behind, List.foldl_nil, List.length_nil, Nat.pow_zero, Nat.one_mul]
  | cons k counts ih =>
    refine Nat.le_trans ?_ (ih (2 * n + k))
    rw [List.length_cons, Nat.pow_succ, Nat.mul_assoc]
    exact Nat.mul_le_mul_left _ (Nat.le_add_right _ _)

theorem firstWord_eq (counts : List ℕ) (n : ℕ) :
    firstWord counts n = 2 * behind 0 (counts.take (n - 1)) := by
  have hstep (word : ℕ) (counts : List ℕ) :
      counts.foldl (fun word k => 2 * (word + k)) (2 * word) = 2 * behind word counts := by
    induction counts generalizing word with
    | nil => rfl
    | cons k counts ih => exact ih (2 * word + k)
  exact hstep 0 _

theorem behind_take_le {counts : List ℕ} {total : ℕ} (hcover : behind 0 counts ≤ 2 ^ total)
    (hlength : counts.length = total) (n : ℕ) (hn : n ≤ total) :
    behind 0 (counts.take n) ≤ 2 ^ n := by
  have hrest := le_behind (behind 0 (counts.take n)) (counts.drop n)
  rw [← behind_append, List.take_append_drop, List.length_drop, hlength] at hrest
  refine Nat.le_of_mul_le_mul_left (hrest.trans (hcover.trans ?_)) (Nat.two_pow_pos (total - n))
  rw [← Nat.pow_add, Nat.sub_add_cancel hn]

theorem reverseBits_lt (n v : ℕ) : reverseBits n v < 2 ^ n := by
  induction n generalizing v with
  | zero => exact Nat.one_pos
  | succ n ih =>
    have hbit : v % 2 * 2 ^ n ≤ 1 * 2 ^ n := Nat.mul_le_mul_right _ (by omega)
    have hrest := ih (v / 2)
    rw [reverseBits, Nat.pow_succ]
    omega

theorem lowBits_reverseBits (n v : ℕ) : lowBits n (reverseBits n v) = (lowBits n v).reverse := by
  induction n generalizing v with
  | zero => rfl
  | succ n ih =>
    have hbit : lowBits 1 (v % 2) = [v.testBit 0] := by
      have := lowBits_mod (m := 1) le_rfl v
      rwa [Nat.pow_one] at this
    rw [reverseBits, Nat.add_comm (v % 2 * 2 ^ n), lowBits_append (reverseBits_lt n _), ih, hbit,
      lowBits_succ, List.reverse_cons]

/-! ### Words -/

/-- The word of a symbol: its number among the strings of its length. -/
def wordOf (lengths : List ℕ) (symbol : ℕ) : ℕ :=
  let n := lengths.getD symbol 0
  firstWord (countsOf lengths) n + (lengths.take symbol).count n

/-- The bits of a symbol, the highest of its word first. -/
def codeword (lengths : List ℕ) (symbol : ℕ) : List Bool :=
  (lowBits (lengths.getD symbol 0) (wordOf lengths symbol)).reverse

@[simp] theorem length_codeword (lengths : List ℕ) (symbol : ℕ) :
    (codeword lengths symbol).length = lengths.getD symbol 0 := by
  rw [codeword, List.length_reverse, length_lowBits]

theorem getD_wordsFor (lengths : List ℕ) (symbol : ℕ) :
    (wordsFor lengths).getD symbol (0, 0) =
      (lengths.getD symbol 0, reverseBits (lengths.getD symbol 0) (wordOf lengths symbol)) := by
  rcases Nat.lt_or_ge symbol lengths.length with h | h
  · simp [wordsFor, wordOf, countsOf, h]
  · simp [wordsFor, h, reverseBits]

/-- A code that covers no more than all bit strings, with words of at most fifteen bits. -/
structure Fits (lengths : List ℕ) : Prop where
  cover : behind 0 (countsOf lengths) ≤ 2 ^ Code.maxLength
  short : ∀ n ∈ lengths, n ≤ Code.maxLength

@[simp] theorem length_countsOf (lengths : List ℕ) : (countsOf lengths).length = Code.maxLength := by
  rw [countsOf, List.length_map, List.length_range]

theorem getElem_countsOf {lengths : List ℕ} {n : ℕ} (h : n < (countsOf lengths).length) :
    (countsOf lengths)[n] = lengths.count (n + 1) := by
  simp [countsOf]

theorem countsOf_eq_append {n : ℕ} (lengths : List ℕ) (hn : n < Code.maxLength) :
    countsOf lengths = (countsOf lengths).take n ++
      lengths.count (n + 1) :: (countsOf lengths).drop (n + 1) := by
  have hlength : n < (countsOf lengths).length := by rwa [length_countsOf]
  rw [← getElem_countsOf hlength, ← List.drop_eq_getElem_cons hlength, List.take_append_drop]

def symbolsOf (lengths : List ℕ) (n : ℕ) : List ℕ :=
  (lengths.zipIdx.filter fun p => p.1 == n).map (·.2)

theorem length_symbolsOf (lengths : List ℕ) (n : ℕ) :
    (symbolsOf lengths n).length = lengths.count n := by
  rw [symbolsOf, List.length_map, ← List.countP_eq_length_filter, List.count]
  conv_rhs => rw [← List.zipIdx_map_fst 0 lengths, List.countP_map]
  rfl

section

variable {lengths : List ℕ} {symbol n : ℕ}

theorem getElem?_symbolsOf (h : lengths[symbol]? = some n) :
    (symbolsOf lengths n)[(lengths.take symbol).count n]? = some symbol := by
  obtain ⟨hsymbol, hn⟩ := List.getElem?_eq_some_iff.1 h
  have hsplit : lengths = lengths.take symbol ++ n :: lengths.drop (symbol + 1) := by
    rw [← hn, ← List.drop_eq_getElem_cons hsymbol, List.take_append_drop]
  have hlength : (lengths.take symbol).length = symbol := by
    rw [List.length_take]
    omega
  have hsymbols : symbolsOf lengths n = symbolsOf (lengths.take symbol) n ++ symbol ::
      (((lengths.drop (symbol + 1)).zipIdx (symbol + 1)).filter fun p => p.1 == n).map (·.2) := by
    conv_lhs => rw [hsplit]
    rw [symbolsOf, List.zipIdx_append, List.filter_append, List.map_append, hlength,
      List.zipIdx_cons, List.filter_cons_of_pos (by simp), Nat.zero_add]
    simp [symbolsOf]
  rw [hsymbols, ← length_symbolsOf, List.getElem?_append_right le_rfl, Nat.sub_self]
  rfl

theorem getElem?_symbols (hn : n < Code.maxLength) (h : lengths[symbol]? = some (n + 1)) :
    (Code.ofLengths lengths).symbols[((countsOf lengths).take n).sum +
      (lengths.take symbol).count (n + 1)]? = some symbol := by
  have hsymbols : (Code.ofLengths lengths).symbols =
      ((List.range Code.maxLength).flatMap fun i => symbolsOf lengths (i + 1)).toArray := rfl
  obtain ⟨k, hk⟩ := Nat.exists_eq_add_of_lt hn
  have hrange : List.range Code.maxLength =
      List.range n ++ n :: (List.range k).map (n + Nat.succ ·) := by
    rw [hk, Nat.add_assoc, List.range_add, List.range_succ_eq_map, List.map_cons, List.map_map]
    rfl
  have hbefore : ((List.range n).flatMap fun i => symbolsOf lengths (i + 1)).length =
      ((countsOf lengths).take n).sum := by
    rw [countsOf, ← List.map_take, List.take_range, Nat.min_eq_left hn.le, List.length_flatMap]
    simp only [length_symbolsOf]
  have hrank := (List.getElem?_eq_some_iff.1 (getElem?_symbolsOf h)).1
  rw [hsymbols, List.getElem?_toArray, hrange, List.flatMap_append, List.flatMap_cons, ← hbefore,
    List.getElem?_append_right (Nat.le_add_right _ _), Nat.add_sub_cancel_left,
    List.getElem?_append_left hrank, getElem?_symbolsOf h]

theorem rank_lt_count (h : lengths[symbol]? = some n) :
    (lengths.take symbol).count n < lengths.count n := by
  rw [← length_symbolsOf lengths]
  exact (List.getElem?_eq_some_iff.1 (getElem?_symbolsOf h)).1

theorem wordOf_lt (hfits : Fits lengths) (hn : n < Code.maxLength)
    (h : lengths[symbol]? = some (n + 1)) :
    2 * behind 0 ((countsOf lengths).take n) + (lengths.take symbol).count (n + 1) <
      2 ^ (n + 1) := by
  have hbehind := behind_take_le hfits.cover (length_countsOf lengths) (n + 1) hn
  rw [List.take_add_one, List.getElem?_eq_getElem (by rwa [length_countsOf]), getElem_countsOf,
    behind_append] at hbehind
  exact (Nat.add_lt_add_left (rank_lt_count h) _).trans_le hbehind

theorem BitWriter.writes_putSymbol (h : Fits lengths) (symbol : ℕ) (w : BitWriter) :
    Writes w (w.putSymbol (wordsFor lengths) symbol) (codeword lengths symbol) := by
  have hshort : lengths.getD symbol 0 ≤ Code.maxLength := by
    rw [List.getD_eq_getElem?_getD]
    cases hsymbol : lengths[symbol]? with
    | none => exact Nat.zero_le _
    | some n => exact h.short n (List.mem_of_getElem? hsymbol)
  rw [Code.maxLength] at hshort
  rw [codeword, ← lowBits_reverseBits, putSymbol, getD_wordsFor]
  exact writes_put w (by omega) (reverseBits_lt _ _)

/-! ### Reading -/

variable {data : ByteArray} {pos : ℕ}

/-- A word is not less than the number that the words of the counts before begin with. -/
theorem le_of_word {before : List ℕ} {p g v rank : ℕ} (hv : v < 2 ^ (before.length + 1))
    (hword : p * 2 ^ (before.length + 1) + v = 2 * behind g before + rank) : g ≤ p := by
  have hbehind := le_behind g before
  have hlt : g * 2 ^ (before.length + 1) < (p + 1) * 2 ^ (before.length + 1) := by
    rw [Nat.pow_succ] at hv hword ⊢
    grind
  exact Nat.lt_succ_iff.1 (Nat.lt_of_mul_lt_mul_right hlt)

theorem reverse_lowBits_succ (m v : ℕ) : (lowBits (m + 1) v).reverse =
    (v / 2 ^ m).testBit 0 :: (lowBits m (v % 2 ^ m)).reverse := by
  rw [lowBits_add, List.reverse_append, lowBits_mod le_rfl]
  rfl

/-- The words of the counts before are passed by: as far as the word has been read it is behind
theirs. -/
theorem decodeFrom_eq {symbols : Array ℕ} {before after : List ℕ} {count rank : ℕ}
    (hrank : rank < count) {p g index v : ℕ} (hv : v < 2 ^ (before.length + 1))
    (hword : p * 2 ^ (before.length + 1) + v = 2 * behind g before + rank)
    (hbits : BitsAt data pos (lowBits (before.length + 1) v).reverse) :
    Code.decodeFrom data symbols (before ++ count :: after) (2 * p) (2 * g) index pos =
      (symbols[index + before.sum + rank]?).map (·, pos + (before.length + 1)) := by
  induction before generalizing p g index v pos with
  | nil =>
    have hfits := hbits.fits
    rw [List.length_reverse, length_lowBits] at hfits
    have hbit : bit data pos = v := by
      have hone : lowBits 1 v = [v.testBit 0] := rfl
      rw [List.length_nil, Nat.zero_add, hone, List.reverse_singleton] at hbits
      rw [hbits.head, Nat.toNat_testBit]
      simp only [List.length_nil] at hv
      omega
    simp only [List.length_nil, behind, List.foldl_nil] at hword hfits ⊢
    rw [List.nil_append, Code.decodeFrom, if_pos (by omega), hbit, if_pos (by omega)]
    congr 2
    simp only [List.sum_nil]
    omega
  | cons k before ih =>
    have hfits := hbits.fits
    rw [List.length_reverse, length_lowBits] at hfits
    rw [List.length_cons] at hv hword hbits hfits
    generalize hm : before.length + 1 = m at *
    rw [reverse_lowBits_succ] at hbits
    have hhigh : v / 2 ^ m < 2 := by
      rw [Nat.div_lt_iff_lt_mul (Nat.two_pow_pos m), ← Nat.pow_succ']
      exact hv
    have hbit : bit data pos = v / 2 ^ m := by
      rw [hbits.head, Nat.toNat_testBit, Nat.pow_zero, Nat.div_one, Nat.mod_eq_of_lt hhigh]
    have hlow := Nat.mod_lt v (Nat.two_pow_pos m)
    have hword' : (2 * p + v / 2 ^ m) * 2 ^ m + v % 2 ^ m =
        2 * behind (2 * g + k) before + rank := by
      refine Eq.trans ?_ hword
      rw [Nat.pow_succ]
      have := Nat.div_add_mod v (2 ^ m)
      grind
    have hahead : 2 * g + k ≤ 2 * p + v / 2 ^ m := by
      rw [← hm] at hlow hword' ⊢
      exact le_of_word hlow hword'
    rw [List.cons_append, Code.decodeFrom, if_pos (by omega), hbit, if_neg (by omega),
      ih hlow hword' hbits.tail]
    congr 2 <;> grind

theorem decode_codeword (hfits : Fits lengths) (hsymbol : lengths.getD symbol 0 ≠ 0)
    (h : BitsAt data pos (codeword lengths symbol)) :
    (Code.ofLengths lengths).decode data pos = some (symbol, pos + lengths.getD symbol 0) := by
  obtain ⟨n, hn⟩ := Nat.exists_eq_succ_of_ne_zero hsymbol
  have hget : lengths[symbol]? = some (n + 1) := by
    rw [List.getD_eq_getElem?_getD] at hn
    cases hsome : lengths[symbol]? with
    | none => simp [hsome] at hn
    | some m => simpa [hsome] using hn
  have hshort : n < Code.maxLength := hfits.short _ (List.mem_of_getElem? hget)
  have hlength : ((countsOf lengths).take n).length = n := by
    rw [List.length_take, length_countsOf, Nat.min_eq_left hshort.le]
  have hword : wordOf lengths symbol =
      2 * behind 0 ((countsOf lengths).take n) + (lengths.take symbol).count (n + 1) := by
    simp only [wordOf, hn, firstWord_eq]
    rfl
  have hcounts : (Code.ofLengths lengths).counts = (countsOf lengths).take n ++
      lengths.count (n + 1) :: (countsOf lengths).drop (n + 1) :=
    countsOf_eq_append lengths hshort
  rw [codeword, hn, hword] at h
  have hread : Code.decodeFrom data (Code.ofLengths lengths).symbols (_ ++ _ ::
      (countsOf lengths).drop (n + 1)) (2 * 0) (2 * 0) 0 pos = _ := decodeFrom_eq
    (rank_lt_count hget) (by rw [hlength]; exact wordOf_lt hfits hshort hget)
    (by rw [hlength, Nat.zero_mul, Nat.zero_add]) (by rwa [hlength])
  rw [Nat.mul_zero, Nat.zero_add, getElem?_symbols hshort hget, hlength, ← hcounts] at hread
  rw [Code.decode, hread, hn]
  rfl

end
end Telemetry.Deflate
