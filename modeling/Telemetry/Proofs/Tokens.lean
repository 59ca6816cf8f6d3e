import Telemetry.Proofs.Announcement
import Telemetry.Proofs.Repetitions

/-! Tokens as bits. A length or a distance is written as the row of its table and what is left in the
row's extra bits; the tokens of a text are read back as the text. -/

namespace Telemetry.Deflate

open Bytes (toList byteAt)

/-! ### Rows -/

/-- Rows that go on where the ones before them end. -/
def Gapless (rows : List (ℕ × ℕ)) : Prop :=
  rows.IsChain fun a b => a.1 < b.1 ∧ b.1 ≤ a.1 + 2 ^ a.2

instance (rows : List (ℕ × ℕ)) : Decidable (Gapless rows) :=
  inferInstanceAs (Decidable (rows.IsChain _))

theorem getElem?_countP {n : ℕ} {first : ℕ × ℕ} {rows : List (ℕ × ℕ)}
    (h : Gapless (first :: rows)) (hfirst : first.1 ≤ n)
    (hlast : n < ((first :: rows).getLast (List.cons_ne_nil _ _)).1 +
      2 ^ ((first :: rows).getLast (List.cons_ne_nil _ _)).2) :
    ∃ row, (first :: rows)[(first :: rows).countP (·.1 ≤ n) - 1]? = some row ∧
      row.1 ≤ n ∧ n < row.1 + 2 ^ row.2 := by
  induction rows generalizing first with
  | nil => exact ⟨first, by simp [hfirst], hfirst, hlast⟩
  | cons second rows ih =>
    obtain ⟨⟨hless, hgap⟩, hrest⟩ := List.isChain_cons_cons.1 h
    rcases Nat.lt_or_ge n second.1 with hn | hn
    · -- all rows behind the first begin behind `n`
      have hbehind : (second :: rows).countP (·.1 ≤ n) = 0 := by
        have : IsTrans (ℕ × ℕ) fun a b => a.1 < b.1 := ⟨fun _ _ _ => Nat.lt_trans⟩
        have hsorted : (second :: rows).Pairwise fun a b => a.1 < b.1 :=
          List.isChain_iff_pairwise.1 (hrest.imp fun _ _ h => h.1)
        refine List.countP_eq_zero.2 fun row hrow => ?_
        rcases List.mem_cons.1 hrow with rfl | hrow
        · simpa using hn
        · have := (List.pairwise_cons.1 hsorted).1 row hrow
          simp only [decide_eq_true_eq]
          omega
      refine ⟨first, ?_, hfirst, hn.trans_le hgap⟩
      rw [List.countP_cons_of_pos (by simpa using hfirst), hbehind]
      rfl
    · obtain ⟨row, hrow, hin⟩ := ih hrest hn (by simpa using hlast)
      refine ⟨row, ?_, hin⟩
      have hpos : 0 < (second :: rows).countP (·.1 ≤ n) :=
        List.countP_pos_iff.2 ⟨second, List.mem_cons_self, by simpa using hn⟩
      obtain ⟨m, hm⟩ := Nat.exists_eq_succ_of_ne_zero hpos.ne'
      rw [List.countP_cons_of_pos (by simpa using hfirst), ← hrow, hm]
      rfl

/-- The row of a number that can be written with a table, and what is left in its extra bits. -/
structure HasRow (table : Array (ℕ × ℕ)) (n : ℕ) : Prop where
  row : table[(rowFor table n).1]? = some (rowFor table n).2
  least_le : (rowFor table n).2.1 ≤ n
  more_lt : n - (rowFor table n).2.1 < 2 ^ (rowFor table n).2.2

theorem hasRow {table : Array (ℕ × ℕ)} {n : ℕ} {first : ℕ × ℕ} {rows : List (ℕ × ℕ)}
    (htable : table.toList = first :: rows) (h : Gapless (first :: rows)) (hfirst : first.1 ≤ n)
    (hlast : n < ((first :: rows).getLast (List.cons_ne_nil _ _)).1 +
      2 ^ ((first :: rows).getLast (List.cons_ne_nil _ _)).2) : HasRow table n := by
  have hfold (l : List (ℕ × ℕ)) (k : ℕ) :
      l.foldl (fun i row => if row.1 ≤ n then i + 1 else i) k = k + l.countP (·.1 ≤ n) := by
    induction l generalizing k with
    | nil => rfl
    | cons row l ih =>
      rw [List.foldl_cons, ih, List.countP_cons]
      simp only [decide_eq_true_eq]
      split_ifs <;> omega
  obtain ⟨row, hrow, hleast, hmost⟩ := getElem?_countP h hfirst hlast
  rw [← htable, Array.getElem?_toList] at hrow
  have heq : rowFor table n = (table.toList.countP (·.1 ≤ n) - 1, row) := by
    simp only [rowFor, ← Array.foldl_toList, hfold, Nat.zero_add, Array.getD_eq_getD_getElem?,
      hrow, Option.getD_some]
  refine ⟨?_, ?_, ?_⟩ <;> rw [heq]
  · exact hrow
  · exact hleast
  · simp only
    omega

theorem hasRow_length {n : ℕ} (hleast : 3 ≤ n) (hmost : n ≤ longestMatch) : HasRow lengthTable n :=
  hasRow rfl (by decide) hleast (Nat.lt_succ_of_le hmost)

theorem hasRow_distance {n : ℕ} (hleast : 0 < n) (hmost : n ≤ window) : HasRow distanceTable n :=
  hasRow rfl (by decide) hleast (Nat.lt_succ_of_le hmost)

/-- The tables have no more than thirteen extra bits. -/
theorem HasRow.extra_le {n : ℕ} :
    (HasRow lengthTable n → (rowFor lengthTable n).1 < 29 ∧ (rowFor lengthTable n).2.2 ≤ 5) ∧
    (HasRow distanceTable n →
      (rowFor distanceTable n).1 < 30 ∧ (rowFor distanceTable n).2.2 ≤ 13) := by
  have hlengths : ∀ row ∈ lengthTable, row.2 ≤ 5 := by decide
  have hdistances : ∀ row ∈ distanceTable, row.2 ≤ 13 := by decide
  refine ⟨fun h => ?_, fun h => ?_⟩
  · exact ⟨(Array.getElem?_eq_some_iff.1 h.row).1, hlengths _ (Array.mem_of_getElem? h.row)⟩
  · exact ⟨(Array.getElem?_eq_some_iff.1 h.row).1, hdistances _ (Array.mem_of_getElem? h.row)⟩

theorem extended?_eq {table : Array (ℕ × ℕ)} {data : ByteArray} {n pos : ℕ} (h : HasRow table n)
    (hbits : BitsAt data pos (lowBits (rowFor table n).2.2 (n - (rowFor table n).2.1))) :
    extended? table data (rowFor table n).1 pos = some (n, pos + (rowFor table n).2.2) := by
  have hmore := hbits.bits?_eq h.more_lt
  simp only [extended?, h.row, Option.bind_eq_bind, Option.bind_some, hmore,
    Nat.add_sub_cancel' h.least_le]

/-! ### Tokens -/

/-- The bits of a token: its word, and the extra bits and the distance of a repetition. -/
def tokenBits (literals distances : List ℕ) : Token → List Bool
  | .literal byte => codeword literals byte.toNat
  | .repetition length distance =>
    codeword literals (257 + (rowFor lengthTable length).1) ++
      lowBits (rowFor lengthTable length).2.2 (length - (rowFor lengthTable length).2.1) ++
      codeword distances (rowFor distanceTable distance).1 ++
      lowBits (rowFor distanceTable distance).2.2 (distance - (rowFor distanceTable distance).2.1)

/-- The bits of tokens and of the end behind them. -/
def tokensBits (literals distances : List ℕ) (ts : List Token) : List Bool :=
  ts.flatMap (tokenBits literals distances) ++ codeword literals 256

theorem tokensBits_cons (literals distances : List ℕ) (t : Token) (ts : List Token) :
    tokensBits literals distances (t :: ts) =
      tokenBits literals distances t ++ tokensBits literals distances ts := by
  rw [tokensBits, List.flatMap_cons, List.append_assoc, tokensBits]

section

variable {data plain : ByteArray} {literals distances : List ℕ} {i j : ℕ} {t : Token}
  {ts : List Token}

theorem Token.StandsAt.writes_putToken (ht : t.StandsAt plain i) (hliterals : Fits literals)
    (hdistances : Fits distances) (w : BitWriter) :
    w.Writes (w.putToken (wordsFor literals) (wordsFor distances) t)
      (tokenBits literals distances t) := by
  cases t with
  | literal byte => exact BitWriter.writes_putSymbol hliterals _ w
  | repetition length distance =>
    have hlength := hasRow_length ht.least ht.most
    have hdistance := hasRow_distance ht.back ht.reach
    have hextra := (HasRow.extra_le.1 hlength).2
    have hextra' := (HasRow.extra_le.2 hdistance).2
    have hmore := hlength.more_lt
    have hmore' := hdistance.more_lt
    rw [BitWriter.putToken, tokenBits]
    generalize rowFor lengthTable length = row at *
    generalize rowFor distanceTable distance = row' at *
    exact (((BitWriter.writes_putSymbol hliterals _ w).trans
      (BitWriter.writes_put _ (hextra.trans (by decide)) hmore)).trans
      (BitWriter.writes_putSymbol hdistances _ _)).trans
      (BitWriter.writes_put _ (hextra'.trans (by decide)) hmore')

theorem Covers.forall_standsAt (h : Covers plain i ts j) : ∀ t ∈ ts, ∃ k, t.StandsAt plain k := by
  induction ts generalizing i with
  | nil => simp
  | cons t ts ih => exact List.forall_mem_cons.2 ⟨⟨i, h.1⟩, ih h.2⟩

theorem Covers.writes_putTokens {tokens : Array Token} (h : Covers plain i tokens.toList j)
    (hliterals : Fits literals) (hdistances : Fits distances) (w : BitWriter) :
    w.Writes (w.putTokens literals distances tokens)
      (tokensBits literals distances tokens.toList) := by
  rw [BitWriter.putTokens, ← Array.foldl_toList]
  refine (BitWriter.Writes.foldl (fun t ht w => ?_) w).trans
    (BitWriter.writes_putSymbol hliterals 256 _)
  obtain ⟨k, hk⟩ := h.forall_standsAt t ht
  exact hk.writes_putToken hliterals hdistances w

/-! ### Reading -/

theorem size_take (hi : i ≤ plain.size) : (plain.extract 0 i).size = i := by
  rw [ByteArray.size_extract]
  omega

theorem byteAt_take {k : ℕ} (hk : k < i) :
    byteAt (plain.extract 0 i) k = byteAt plain k := by
  rw [Bytes.byteAt_eq_getD, Bytes.byteAt_eq_getD, Bytes.toList_extract, List.drop_zero,
    List.getD_eq_getElem?_getD, List.getD_eq_getElem?_getD, List.getElem?_take_of_lt hk]

theorem push_take (hi : i < plain.size) :
    (plain.extract 0 i).push (byteAt plain i) = plain.extract 0 (i + 1) := by
  refine Bytes.toList_inj ?_
  rw [Bytes.size_eq_length] at hi
  rw [Bytes.toList_push, Bytes.toList_extract, Bytes.toList_extract, List.drop_zero, List.drop_zero,
    List.take_add_one, Bytes.byteAt_eq_getD, List.getD_eq_getElem _ _ hi,
    List.getElem?_eq_getElem hi]
  rfl

/-- A copy goes on with the text, also where it reaches into itself. -/
theorem copyBack_take {distance n : ℕ} (hback : 0 < distance) (hbegins : distance ≤ i)
    (hends : i + n ≤ plain.size)
    (hsame : ∀ k < n, byteAt plain (i - distance + k) = byteAt plain (i + k)) :
    copyBack distance n (plain.extract 0 i) = plain.extract 0 (i + n) := by
  induction n generalizing i with
  | zero => rfl
  | succ n ih =>
    have hnext : ∀ k < n, byteAt plain (i + 1 - distance + k) = byteAt plain (i + 1 + k) := by
      intro k hk
      have := hsame (k + 1) (by omega)
      rwa [← Nat.add_assoc, Nat.add_right_comm, ← Nat.sub_add_comm hbegins, Nat.add_comm k,
        ← Nat.add_assoc] at this
    have hbyte := hsame 0 (Nat.succ_pos n)
    rw [Nat.add_zero, Nat.add_zero] at hbyte
    rw [copyBack, size_take (by omega), byteAt_take (by omega), hbyte,
      push_take (by omega), ih (by omega) (by omega) hnext, Nat.add_assoc, Nat.add_comm 1]

theorem Repeats.match?_eq {length distance pos : ℕ} {row row' : ℕ × ℕ × ℕ}
    (h : Repeats plain i length distance) (hrow : rowFor lengthTable length = row)
    (hrow' : rowFor distanceTable distance = row') (hdistances : Fits distances)
    (hword : distances.getD row'.1 0 ≠ 0)
    (hbits : BitsAt data pos (lowBits row.2.2 (length - row.2.1) ++
      codeword distances row'.1 ++ lowBits row'.2.2 (distance - row'.2.1))) :
    match? data (Code.ofLengths distances) (257 + row.1) pos =
      some (length, distance, pos + row.2.2 + distances.getD row'.1 0 + row'.2.2) := by
  have hextra := hbits.left.left
  have hsymbol := hbits.left.right
  have hextra' := hbits.right
  simp only [List.length_append, length_lowBits, length_codeword, ← Nat.add_assoc]
    at hsymbol hextra'
  have hlength := extended?_eq (hasRow_length h.least h.most) (hrow.symm ▸ hextra)
  have hdistance := extended?_eq (hasRow_distance h.back h.reach) (hrow'.symm ▸ hextra')
  rw [hrow] at hlength
  rw [hrow'] at hdistance
  unfold match?
  simp only [Nat.add_sub_cancel_left, hlength, Option.bind_eq_bind, Option.bind_some,
    decode_codeword hdistances hword hsymbol, hdistance]

theorem Token.StandsAt.symbols_succ {pos fuel limit : ℕ} (ht : t.StandsAt plain i)
    (hliterals : Fits literals) (hdistances : Fits distances)
    (hword : literals.getD t.symbol 0 ≠ 0)
    (hword' : ∀ s ∈ t.distanceSymbol?, distances.getD s 0 ≠ 0)
    (hbits : BitsAt data pos (tokenBits literals distances t)) (hlimit : plain.size ≤ limit) :
    symbols data limit (Code.ofLengths literals) (Code.ofLengths distances) (fuel + 1) pos
      (plain.extract 0 i) =
    symbols data limit (Code.ofLengths literals) (Code.ofLengths distances) fuel
      (pos + (tokenBits literals distances t).length) (plain.extract 0 (i + t.size)) := by
  have hfits := ht.fits
  cases t with
  | literal byte =>
    obtain ⟨hi, rfl⟩ := ht
    have hbyte : (byteAt plain i).toNat < 256 := (byteAt plain i).toNat_lt
    have hdecode : (Code.ofLengths literals).decode data pos = some ((byteAt plain i).toNat, _) :=
      decode_codeword hliterals hword hbits
    simp only [symbols, hdecode, hbyte, if_true, size_take hi.le, hi.trans_le hlimit,
      UInt8.ofNat_toNat, push_take hi, tokenBits, length_codeword, Token.size]
  | repetition length distance =>
    have hi : i ≤ plain.size := (Nat.le_add_right _ _).trans hfits
    have hends : i + length ≤ limit := hfits.trans hlimit
    generalize hrow : rowFor lengthTable length = row
    generalize hrow' : rowFor distanceTable distance = row'
    have hdistance : distances.getD row'.1 0 ≠ 0 := hword' _ (by simp [distanceSymbol?, hrow'])
    have hlength : literals.getD (257 + row.1) 0 ≠ 0 := by rwa [symbol, hrow] at hword
    simp only [tokenBits, hrow, hrow', List.append_assoc] at hbits ⊢
    have hdecode := decode_codeword hliterals hlength hbits.left
    have hextra := hbits.right
    rw [length_codeword] at hextra
    have hmatch := ht.match?_eq hrow hrow' hdistances hdistance
      (by simpa only [List.append_assoc] using hextra)
    have hsize : pos + literals.getD (257 + row.1) 0 + row.2.2 + distances.getD row'.1 0 +
        row'.2.2 = pos + (literals.getD (257 + row.1) 0 + (row.2.2 + (distances.getD row'.1 0 +
          row'.2.2))) := by omega
    rw [symbols, hdecode]
    simp only [hmatch, size_take hi, hends, if_true, List.length_append, length_codeword,
      length_lowBits, hsize, Token.size]
    rw [if_neg (by omega), if_neg (by omega), if_neg (Nat.not_lt.2 ht.begins),
      copyBack_take ht.back ht.begins ht.ends ht.same]

theorem Covers.symbols_eq {pos fuel limit : ℕ} (h : Covers plain i ts j) (hi : i ≤ plain.size)
    (hliterals : Coded literals (256 :: ts.map Token.symbol))
    (hdistances : Coded distances (ts.filterMap Token.distanceSymbol?))
    (hbits : BitsAt data pos (tokensBits literals distances ts)) (hlimit : plain.size ≤ limit)
    (hfuel : ts.length < fuel) :
    symbols data limit (Code.ofLengths literals) (Code.ofLengths distances) fuel pos
      (plain.extract 0 i) =
        .ok ⟨plain.extract 0 j, pos + (tokensBits literals distances ts).length⟩ := by
  obtain ⟨hend, hwords⟩ := List.forall_mem_cons.1 hliterals.words
  have hwords' := hdistances.words
  obtain ⟨hliterals, -, -⟩ := hliterals
  obtain ⟨hdistances, -, -⟩ := hdistances
  induction ts generalizing i pos fuel with
  | nil =>
    obtain ⟨fuel, rfl⟩ := Nat.exists_eq_succ_of_ne_zero (Nat.ne_zero_of_lt hfuel)
    obtain rfl : i = j := h
    rw [tokensBits, List.flatMap_nil, List.nil_append] at hbits ⊢
    rw [symbols, decode_codeword hliterals hend hbits]
    simp
  | cons t ts ih =>
    obtain ⟨fuel, rfl⟩ := Nat.exists_eq_succ_of_ne_zero (Nat.ne_zero_of_lt hfuel)
    obtain ⟨ht, hrest⟩ := h
    rw [List.map_cons, List.forall_mem_cons] at hwords
    have hfirst : ∀ s ∈ t.distanceSymbol?, distances.getD s 0 ≠ 0 := fun s hs =>
      hwords' s (List.mem_filterMap.2 ⟨t, List.mem_cons_self, hs⟩)
    have hothers : ∀ s ∈ ts.filterMap Token.distanceSymbol?, distances.getD s 0 ≠ 0 := by
      intro s hs
      obtain ⟨u, hu, hsymbol⟩ := List.mem_filterMap.1 hs
      exact hwords' s (List.mem_filterMap.2 ⟨u, List.mem_cons_of_mem t hu, hsymbol⟩)
    rw [tokensBits_cons] at hbits ⊢
    rw [ht.symbols_succ hliterals hdistances hwords.1 hfirst hbits.left hlimit,
      ih hrest ht.fits hbits.right (Nat.lt_of_succ_lt_succ hfuel) hwords.2 hothers,
      List.length_append, Nat.add_assoc]

end
end Telemetry.Deflate
