import Mathlib.Algebra.BigOperators.Ring.List
import Mathlib.Data.List.Perm.Lattice
import Telemetry.Deflate.Lengths
import Telemetry.Proofs.Codeword

/-! Lengths of codewords. A tree's leaves cover all bit strings. Cut off at a limit they cover too
many, but no more than were cut off, and each relief makes that one less; so two symbols or more are
given the lengths of a complete code. -/

namespace Telemetry.Deflate

/-! ### Trees -/

def Tree.leaves : Tree → ℕ
  | leaf => 1
  | fork left right => left.leaves + right.leaves

theorem Tree.length_depths (t : Tree) (depth : ℕ) : (t.depths depth).length = t.leaves := by
  induction t generalizing depth with
  | leaf => rfl
  | fork left right ihl ihr => rw [depths, List.length_append, ihl, ihr, leaves]

theorem Tree.le_of_mem_depths {t : Tree} {depth d : ℕ} (h : d ∈ t.depths depth) : depth ≤ d := by
  induction t generalizing depth with
  | leaf => exact (List.mem_singleton.1 h).ge
  | fork left right ihl ihr =>
    rcases List.mem_append.1 h with h | h
    · exact Nat.le_of_succ_le (ihl h)
    · exact Nat.le_of_succ_le (ihr h)

/-- The part of all strings of `limit` bits that begin with words of the given lengths. -/
def covered (limit : ℕ) (depths : List ℕ) : ℕ := (depths.map fun d => 2 ^ (limit - d)).sum

/-- Below the limit nothing is cut off; from there on each leaf still covers one string. -/
theorem Tree.covered_depths (t : Tree) (limit depth : ℕ) :
    2 ^ (limit - depth) ≤ covered limit (t.depths depth) ∧
    covered limit (t.depths depth) ≤
      (if limit ≤ depth then 0 else 2 ^ (limit - depth)) +
        (t.depths depth).countP (limit ≤ ·) := by
  induction t generalizing depth with
  | leaf =>
    simp only [depths, covered, List.map_singleton, List.sum_singleton, List.countP_singleton]
    split_ifs with h <;> simp_all
  | fork left right ihl ihr =>
    obtain ⟨hleft, hleft'⟩ := ihl (depth + 1)
    obtain ⟨hright, hright'⟩ := ihr (depth + 1)
    have hsum : covered limit ((fork left right).depths depth) =
        covered limit (left.depths (depth + 1)) + covered limit (right.depths (depth + 1)) := by
      simp [covered, depths]
    rw [hsum, depths, List.countP_append]
    rcases Nat.lt_or_ge depth limit with h | h
    · have hpow : 2 ^ (limit - depth) = 2 * 2 ^ (limit - (depth + 1)) := by
        rw [← Nat.pow_succ', Nat.succ_eq_add_one]
        congr 1
        omega
      rw [if_neg (by omega), hpow]
      split_ifs at hleft' hright' <;> omega
    · have hpow : 2 ^ (limit - depth) = 2 ^ (limit - (depth + 1)) := by
        congr 1
        omega
      rw [if_pos (by omega)] at hleft' hright' ⊢
      omega

/-- The leaves of the trees that are still to be joined. -/
def leavesOf (leaves : List ℕ) (forks : List (ℕ × Tree)) : ℕ :=
  leaves.length + (forks.map (·.2.leaves)).sum

theorem lightest?_eq {leaves : List ℕ} {forks : List (ℕ × Tree)}
    (h : 0 < leaves.length + forks.length) :
    ∃ t leaves' forks', lightest? leaves forks = some (t, leaves', forks') ∧
      leaves'.length + forks'.length + 1 = leaves.length + forks.length ∧
      t.2.leaves + leavesOf leaves' forks' = leavesOf leaves forks := by
  unfold lightest?
  split
  · simp at h
  · exact ⟨_, _, _, rfl, by simp, by simp [leavesOf, Tree.leaves]; omega⟩
  · exact ⟨_, _, _, rfl, by simp, by simp [leavesOf]⟩
  · split_ifs
    · exact ⟨_, _, _, rfl, by simp; omega, by simp [leavesOf]; omega⟩
    · exact ⟨_, _, _, rfl, by simp; omega, by simp [leavesOf, Tree.leaves]; omega⟩

theorem joined_eq {fuel : ℕ} {leaves : List ℕ} {forks : List (ℕ × Tree)}
    (h : 0 < leaves.length + forks.length) (hfuel : leaves.length + forks.length ≤ fuel) :
    ∃ t, joined fuel leaves forks = some t ∧ t.leaves = leavesOf leaves forks := by
  induction fuel generalizing leaves forks with
  | zero => omega
  | succ fuel ih =>
    obtain ⟨a, leaves', forks', ha, hlength, hleaves⟩ := lightest?_eq h
    simp only [joined, ha, Option.bind_eq_bind, Option.bind_some]
    rcases Nat.eq_zero_or_pos (leaves'.length + forks'.length) with hlast | hmore
    · obtain ⟨hleaves', hforks'⟩ := Nat.add_eq_zero_iff.1 hlast
      obtain rfl := List.length_eq_zero_iff.1 hleaves'
      obtain rfl := List.length_eq_zero_iff.1 hforks'
      exact ⟨a.2, rfl, hleaves⟩
    · obtain ⟨b, leaves'', forks'', hb, hlength', hleaves''⟩ := lightest?_eq hmore
      have hsome : 0 < leaves''.length + (forks'' ++ [(a.1 + b.1, a.2.fork b.2)]).length := by simp
      obtain ⟨t, ht, hall⟩ := ih hsome (by simp; omega)
      simp only [hb]
      refine ⟨t, ht, hall.trans ?_⟩
      simp only [leavesOf, List.map_append, List.sum_append, List.map_singleton,
        List.sum_singleton, Tree.leaves] at hleaves hleaves'' ⊢
      omega

/-! ### How many of each length -/

/-- What codewords cover of which there are `counts` of `limit` bits, of one bit fewer and so on. -/
def weight (counts : List ℕ) : ℕ := counts.foldr (fun k n => 2 * n + k) 0

@[simp] theorem weight_cons (k : ℕ) (counts : List ℕ) :
    weight (k :: counts) = 2 * weight counts + k := rfl

theorem weight_eq_zero {counts : List ℕ} (h : counts.sum = 0) : weight counts = 0 := by
  induction counts with
  | nil => rfl
  | cons k counts ih =>
    rw [List.sum_cons, Nat.add_eq_zero_iff] at h
    rw [weight_cons, h.1, ih h.2]

theorem weight_modify {counts : List ℕ} {i : ℕ} (h : i < counts.length) :
    weight (counts.modify i (· + 1)) = weight counts + 2 ^ i := by
  induction counts generalizing i with
  | nil => simp at h
  | cons k counts ih =>
    cases i with
    | zero =>
      simp
      omega
    | succ i =>
      simp only [List.length_cons, Nat.add_lt_add_iff_right] at h
      rw [List.modify_succ_cons, weight_cons, weight_cons, ih h, Nat.pow_succ]
      omega

theorem sum_modify {counts : List ℕ} {i : ℕ} (h : i < counts.length) :
    (counts.modify i (· + 1)).sum = counts.sum + 1 := by
  induction counts generalizing i with
  | nil => simp at h
  | cons k counts ih =>
    cases i with
    | zero =>
      simp
      omega
    | succ i =>
      simp only [List.length_cons, Nat.add_lt_add_iff_right] at h
      rw [List.modify_succ_cons, List.sum_cons, List.sum_cons, ih h]
      omega

/-- How many depths there are of `limit`, of one less and so on. -/
def tally (limit : ℕ) (depths : List ℕ) : List ℕ :=
  (List.range limit).map fun i => depths.count (limit - i)

@[simp] theorem length_tally (limit : ℕ) (depths : List ℕ) : (tally limit depths).length = limit := by
  simp [tally]

theorem tally_cons {limit d : ℕ} {depths : List ℕ} (hd : 0 < d) (hlimit : d ≤ limit) :
    tally limit (d :: depths) = (tally limit depths).modify (limit - d) (· + 1) := by
  refine List.ext_getElem (by simp) fun i hi _ => ?_
  rw [length_tally] at hi
  simp only [tally, List.getElem_map, List.getElem_range, List.getElem_modify, List.count_cons]
  have : (d == limit - i) = decide (limit - d = i) := by
    rw [Bool.beq_eq_decide_eq, decide_eq_decide]
    omega
  rw [this]
  split_ifs <;> simp_all

theorem weight_tally {limit : ℕ} {depths : List ℕ} (h : ∀ d ∈ depths, 0 < d ∧ d ≤ limit) :
    weight (tally limit depths) = covered limit depths ∧
      (tally limit depths).sum = depths.length := by
  induction depths with
  | nil =>
    have hsum : (tally limit []).sum = 0 := by simp [tally]
    exact ⟨weight_eq_zero hsum, hsum⟩
  | cons d depths ih =>
    obtain ⟨⟨hd, hlimit⟩, hdepths⟩ := List.forall_mem_cons.1 h
    obtain ⟨hweight, hsum⟩ := ih hdepths
    have hplace : limit - d < (tally limit depths).length := by
      rw [length_tally]
      omega
    rw [tally_cons hd hlimit, weight_modify hplace, sum_modify hplace, hweight, hsum]
    simp [covered, Nat.add_comm]

theorem lengthen_eq (a : ℕ) {rest : List ℕ} (h : rest.sum ≠ 0) :
    ∃ a' rest', lengthen (a :: rest) = a' :: rest' ∧ a ≤ a' ∧ rest'.length = rest.length ∧
      weight (a' :: rest') = weight (a :: rest) ∧ a' + rest'.sum = a + rest.sum + 1 := by
  induction rest generalizing a with
  | nil => simp at h
  | cons b rest ih =>
    cases b with
    | zero =>
      obtain ⟨b', rest', heq, -, hlength, hweight, hsum⟩ := ih 0 (by simpa using h)
      refine ⟨a, b' :: rest', by rw [lengthen, heq], le_rfl, by simpa using hlength, ?_, ?_⟩
      · rw [weight_cons a, weight_cons a, hweight]
      · rw [List.sum_cons, List.sum_cons]
        omega
    | succ b =>
      refine ⟨a + 2, b :: rest, rfl, by omega, by simp, ?_, ?_⟩
      · simp only [weight_cons]
        omega
      · simp only [List.sum_cons]
        omega

/-- Counts of `limit` lengths for `total` words, which cover `excess` more than all strings of
`limit` bits; there are as many of the longest words. -/
structure Exceeds (limit total excess : ℕ) (counts : List ℕ) : Prop where
  length : counts.length = limit
  sum : counts.sum = total
  weight : weight counts = 2 ^ limit + excess
  head : excess ≤ counts.headD 0

theorem Exceeds.relieve {limit total excess : ℕ} {counts : List ℕ} (hroom : total ≤ 2 ^ limit)
    (h : Exceeds limit total (excess + 1) counts) :
    Exceeds limit total excess (relieve counts) := by
  obtain ⟨hlength, hsum, hweight, hhead⟩ := h
  cases counts with
  | nil => simp at hhead
  | cons a rest =>
    rw [List.headD_cons] at hhead
    have hrest : rest.sum ≠ 0 := by
      intro hzero
      rw [List.sum_cons, hzero] at hsum
      rw [weight_cons, weight_eq_zero hzero] at hweight
      omega
    obtain ⟨a', rest', heq, ha, hlength', hweight', hsum'⟩ := lengthen_eq (a - 1) hrest
    rw [weight_cons, weight_cons] at hweight'
    rw [weight_cons] at hweight
    rw [List.sum_cons] at hsum
    rw [Deflate.relieve, heq]
    refine ⟨by simpa [hlength'] using hlength, ?_, ?_, ?_⟩
    · rw [List.sum_cons]
      omega
    · rw [weight_cons]
      omega
    · rw [List.headD_cons]
      omega

theorem Exceeds.relieved {limit total excess : ℕ} {counts : List ℕ} (hroom : total ≤ 2 ^ limit)
    (h : Exceeds limit total excess counts) :
    Exceeds limit total 0 (Deflate.relieve^[excess] counts) := by
  induction excess generalizing counts with
  | zero => exact h
  | succ excess ih => exact ih (h.relieve hroom)

theorem covered_map_min (limit : ℕ) (depths : List ℕ) :
    covered limit (depths.map (min limit)) = covered limit depths := by
  rw [covered, covered, List.map_map]
  congr 2
  funext d
  rw [Function.comp_apply]
  congr 1
  omega

/-- What is cut off counts among the longest. -/
theorem headD_tally_map_min {limit : ℕ} (hlimit : 0 < limit) (depths : List ℕ) :
    (tally limit (depths.map (min limit))).headD 0 = depths.countP (limit ≤ ·) := by
  obtain ⟨limit, rfl⟩ := Nat.exists_eq_succ_of_ne_zero hlimit.ne'
  rw [tally, List.range_succ_eq_map, List.map_cons, List.headD_cons, List.count, List.countP_map]
  refine List.countP_congr fun d _ => ?_
  simp

/-- The counts of cut off depths, relieved of what they cover too much. -/
theorem countsFor_eq {limit : ℕ} {depths : List ℕ} (hlimit : 0 < limit)
    (hdepths : ∀ d ∈ depths, 0 < d) (hroom : depths.length ≤ 2 ^ limit)
    (hexcess : covered limit depths ≤ 2 ^ limit + depths.countP (limit ≤ ·)) :
    (countsFor limit depths).length = limit ∧ (countsFor limit depths).sum = depths.length ∧
      weight (countsFor limit depths) = min (covered limit depths) (2 ^ limit) := by
  have hcounts : countsFor limit depths =
      relieve^[weight (tally limit (depths.map (min limit))) - 2 ^ limit]
        (tally limit (depths.map (min limit))) := by
    rw [← List.length_range (n := weight _ - _), ← List.foldl_const]
    rfl
  have hcut : ∀ d ∈ depths.map (min limit), 0 < d ∧ d ≤ limit := by
    intro _ hd
    obtain ⟨d, hmem, rfl⟩ := List.mem_map.1 hd
    have := hdepths d hmem
    omega
  obtain ⟨hweight, hsum⟩ := weight_tally hcut
  rw [covered_map_min] at hweight
  rw [List.length_map] at hsum
  rw [hcounts, hweight]
  rcases Nat.le_total (covered limit depths) (2 ^ limit) with hle | hge
  · rw [Nat.sub_eq_zero_of_le hle, Nat.min_eq_left hle]
    exact ⟨length_tally _ _, hsum, hweight⟩
  · have hhead := headD_tally_map_min hlimit depths
    have hexceeds : Exceeds limit depths.length (covered limit depths - 2 ^ limit)
        (tally limit (depths.map (min limit))) :=
      ⟨length_tally _ _, hsum, by omega, by omega⟩
    obtain ⟨hlength, hsum, hweight, -⟩ := hexceeds.relieved hroom
    rw [Nat.min_eq_right hge]
    exact ⟨hlength, hsum, hweight⟩

theorem depthsOf_eq (limit : ℕ) (weights : List ℕ) :
    (depthsOf weights).length = weights.length ∧ (∀ d ∈ depthsOf weights, 0 < d) ∧
      covered limit (depthsOf weights) ≤ 2 ^ limit + (depthsOf weights).countP (limit ≤ ·) ∧
      (2 ≤ weights.length → 2 ^ limit ≤ covered limit (depthsOf weights)) := by
  rcases Nat.eq_zero_or_pos weights.length with hnone | hsome
  · obtain rfl := List.length_eq_zero_iff.1 hnone
    simp [depthsOf, joined, covered]
  · have hsome' : 0 < weights.length + ([] : List (ℕ × Tree)).length := by simpa
    obtain ⟨t, ht, hleaves⟩ := joined_eq hsome' le_rfl
    simp only [leavesOf, List.map_nil, List.sum_nil, Nat.add_zero] at hleaves
    rw [List.length_nil, Nat.add_zero] at ht
    cases t with
    | leaf =>
      have hdepths : depthsOf weights = [1] := by rw [depthsOf, ht]
      have hpow : 2 ^ (limit - 1) ≤ 2 ^ limit := Nat.pow_le_pow_right (by decide) (Nat.sub_le _ _)
      rw [Tree.leaves] at hleaves
      rw [hdepths, ← hleaves]
      refine ⟨rfl, by simp, ?_, by simp⟩
      simp only [covered, List.map_singleton, List.sum_singleton]
      omega
    | fork left right =>
      have hdepths : depthsOf weights = (Tree.fork left right).depths 0 := by rw [depthsOf, ht]
      obtain ⟨hleast, hmost⟩ := (Tree.fork left right).covered_depths limit 0
      rw [hdepths, Tree.length_depths, hleaves]
      refine ⟨rfl, fun d hd => ?_, hmost.trans ?_, fun _ => hleast⟩
      · rcases List.mem_append.1 hd with hd | hd <;> exact Tree.le_of_mem_depths hd
      · split_ifs <;> simp

/-! ### Which symbol takes which -/

/-- The longest first, of each length as many as are counted. -/
def spread (limit : ℕ) (counts : List ℕ) (k : ℕ) : List ℕ :=
  (counts.zipIdx k).flatMap fun (n, i) => List.replicate n (limit - i)

section

variable {limit k : ℕ} {counts : List ℕ}

theorem spread_cons (n : ℕ) : spread limit (n :: counts) k =
    List.replicate n (limit - k) ++ spread limit counts (k + 1) := by
  rw [spread, List.zipIdx_cons, List.flatMap_cons]
  rfl

theorem length_spread : (spread limit counts k).length = counts.sum := by
  induction counts generalizing k with
  | nil => rfl
  | cons n counts ih => rw [spread_cons, List.length_append, List.length_replicate, ih, List.sum_cons]

theorem mem_spread (hlimit : k + counts.length ≤ limit) :
    ∀ n ∈ spread limit counts k, 0 < n ∧ n ≤ limit := by
  induction counts generalizing k with
  | nil => simp [spread]
  | cons n counts ih =>
    rw [List.length_cons] at hlimit
    intro m hm
    rw [spread_cons, List.mem_append, List.mem_replicate] at hm
    rcases hm with ⟨-, rfl⟩ | hm
    · omega
    · exact ih (by omega) m hm

theorem covered_spread (hlimit : k + counts.length ≤ limit) :
    covered limit (spread limit counts k) = 2 ^ k * weight counts := by
  induction counts generalizing k with
  | nil => simp [spread, covered, weight]
  | cons n counts ih =>
    rw [List.length_cons] at hlimit
    have hplace : limit - (limit - k) = k := by omega
    rw [spread_cons, covered, List.map_append, List.sum_append, ← covered, ← covered,
      ih (by omega), weight_cons, covered, List.map_replicate, List.sum_replicate_nat, hplace,
      Nat.pow_succ]
    grind

end

theorem map_lookup_zip {keys values : List ℕ} (hkeys : keys.Nodup)
    (hlength : keys.length = values.length) :
    (keys.map fun key => ((keys.zip values).lookup key).getD 0) = values := by
  induction keys generalizing values with
  | nil => exact (List.length_eq_zero_iff.1 hlength.symm).symm
  | cons key keys ih =>
    cases values with
    | nil => simp at hlength
    | cons value values =>
      obtain ⟨hkey, hkeys⟩ := List.nodup_cons.1 hkeys
      rw [List.zip_cons_cons, List.map_cons, List.lookup_cons_self, Option.getD_some]
      refine congrArg (value :: ·) (Eq.trans (List.map_congr_left fun other hother => ?_)
        (ih hkeys (by simpa using hlength)))
      rw [List.lookup_cons, beq_false_of_ne (ne_of_mem_of_not_mem hother hkey)]

section

variable {keys values : List ℕ} {n : ℕ}

theorem lookup_zip_ne_zero_iff (hkeys : keys.Nodup) (hlength : keys.length = values.length)
    (hvalues : ∀ value ∈ values, 0 < value) (key : ℕ) :
    ((keys.zip values).lookup key).getD 0 ≠ 0 ↔ key ∈ keys := by
  constructor
  · intro h
    by_contra hkey
    refine h (congrArg (·.getD 0) (List.lookup_eq_none_iff.2 fun p hp => ?_))
    exact bne_iff_ne.2 (ne_of_mem_of_not_mem (List.of_mem_zip hp).1 hkey).symm
  · intro h
    have hmem : ((keys.zip values).lookup key).getD 0 ∈
        keys.map fun key => ((keys.zip values).lookup key).getD 0 := List.mem_map_of_mem h
    rw [map_lookup_zip hkeys hlength] at hmem
    exact (hvalues _ hmem).ne'

theorem filter_lookup_zip (hkeys : keys.Nodup) (hlength : keys.length = values.length)
    (hvalues : ∀ value ∈ values, 0 < value) (hn : ∀ key ∈ keys, key < n) :
    (((List.range n).map fun key => ((keys.zip values).lookup key).getD 0).filter (· ≠ 0)).Perm
      values := by
  rw [List.filter_map]
  conv_rhs => rw [← map_lookup_zip hkeys hlength]
  refine List.Perm.map _ ((List.perm_ext_iff_of_nodup (List.nodup_range.filter _) hkeys).2 ?_)
  intro key
  simp only [List.mem_filter, List.mem_range, Function.comp_apply, decide_eq_true_eq]
  rw [lookup_zip_ne_zero_iff hkeys hlength hvalues]
  exact ⟨And.right, fun h => ⟨hn key h, h⟩⟩

end

section

variable (occurrences : List ℕ)

theorem present_perm : (present occurrences).Perm (occurrences.zipIdx.filter (·.1 != 0)) :=
  List.mergeSort_perm _ _

theorem length_present : (present occurrences).length = occurrences.countP (· ≠ 0) := by
  rw [(present_perm occurrences).length_eq, ← List.countP_eq_length_filter]
  conv_rhs => rw [← List.zipIdx_map_fst 0 occurrences, List.countP_map]
  refine List.countP_congr fun p _ => ?_
  simp

theorem nodup_present : ((present occurrences).map (·.2)).Nodup := by
  refine ((present_perm occurrences).map _).nodup_iff.2 ?_
  refine (List.filter_sublist.map Prod.snd).nodup ?_
  rw [List.zipIdx_map_snd]
  exact List.nodup_range'

theorem mem_present {symbol : ℕ} :
    symbol ∈ (present occurrences).map (·.2) ↔ occurrences.getD symbol 0 ≠ 0 := by
  rw [((present_perm occurrences).map _).mem_iff, List.getD_eq_getElem?_getD]
  simp only [List.mem_map, List.mem_filter, List.mem_zipIdx_iff_getElem?, bne_iff_ne]
  constructor
  · rintro ⟨p, ⟨hp, hne⟩, rfl⟩
    rwa [hp, Option.getD_some]
  · intro h
    cases hsymbol : occurrences[symbol]? with
    | none => simp [hsymbol] at h
    | some n => exact ⟨(n, symbol), ⟨hsymbol, by simpa [hsymbol] using h⟩, rfl⟩

end

/-- The symbols that occur take the values in their order, the others zero. -/
def assigned (occurrences values : List ℕ) : List ℕ :=
  (List.range occurrences.length).map fun symbol =>
    ((((present occurrences).map (·.2)).zip values).lookup symbol).getD 0

section

variable {occurrences values : List ℕ}

theorem getD_assigned_ne_zero_iff (hlength : occurrences.countP (· ≠ 0) = values.length)
    (hvalues : ∀ value ∈ values, 0 < value) (symbol : ℕ) :
    (assigned occurrences values).getD symbol 0 ≠ 0 ↔ occurrences.getD symbol 0 ≠ 0 := by
  rcases Nat.lt_or_ge symbol occurrences.length with h | h
  · rw [← mem_present occurrences, ← lookup_zip_ne_zero_iff (nodup_present occurrences)
      (by rw [List.length_map, length_present, hlength]) hvalues]
    simp [assigned, h]
  · simp [assigned, h]

theorem filter_assigned (hlength : occurrences.countP (· ≠ 0) = values.length)
    (hvalues : ∀ value ∈ values, 0 < value) :
    ((assigned occurrences values).filter (· ≠ 0)).Perm values := by
  refine filter_lookup_zip (nodup_present occurrences)
    (by rw [List.length_map, length_present, hlength]) hvalues fun symbol h => ?_
  by_contra hbeyond
  exact (mem_present occurrences).1 h (List.getD_eq_default _ _ (Nat.not_lt.1 hbeyond))

end

/-- What the lengths for `occurrences` are: of a code of words of at most `limit` bits for the
symbols that occur, which is complete if these are two or more. -/
structure Allotted (limit : ℕ) (occurrences lengths : List ℕ) : Prop where
  length : lengths.length = occurrences.length
  occurs : ∀ symbol, lengths.getD symbol 0 ≠ 0 ↔ occurrences.getD symbol 0 ≠ 0
  short : ∀ n ∈ lengths, n ≤ limit
  number : lengths.countP (· ≠ 0) = occurrences.countP (· ≠ 0)
  covered : covered limit (lengths.filter (· ≠ 0)) ≤ 2 ^ limit
  complete : 2 ≤ occurrences.countP (· ≠ 0) →
    Deflate.covered limit (lengths.filter (· ≠ 0)) = 2 ^ limit

theorem allotted {limit : ℕ} {occurrences : List ℕ} (hlimit : 0 < limit)
    (hroom : occurrences.length ≤ 2 ^ limit) :
    Allotted limit occurrences (lengthsFor limit occurrences) := by
  have hlengths : lengthsFor limit occurrences = assigned occurrences
    (spread limit (countsFor limit (depthsOf ((present occurrences).map (·.1)))) 0) := rfl
  obtain ⟨hdepths, hpositive, hexcess, henough⟩ :=
    depthsOf_eq limit ((present occurrences).map (·.1))
  rw [List.length_map, length_present] at hdepths henough
  generalize depthsOf ((present occurrences).map (·.1)) = depths at *
  obtain ⟨hcounts, hsum, hweight⟩ := countsFor_eq hlimit hpositive
    (hdepths ▸ List.countP_le_length.trans hroom) hexcess
  generalize countsFor limit depths = counts at *
  have hfits : 0 + counts.length ≤ limit := by omega
  have hvalues := mem_spread hfits
  have hperm : ((lengthsFor limit occurrences).filter (· ≠ 0)).Perm (spread limit counts 0) :=
    hlengths ▸ filter_assigned (by rw [length_spread, hsum, hdepths]) fun n h => (hvalues n h).1
  have hcovered : covered limit ((lengthsFor limit occurrences).filter (· ≠ 0)) =
      min (covered limit depths) (2 ^ limit) := by
    rw [← hweight, ← Nat.one_mul (weight counts), ← Nat.pow_zero 2, ← covered_spread hfits]
    exact (hperm.map _).sum_eq
  refine ⟨?_, fun symbol => ?_, fun n hn => ?_, ?_, hcovered ▸ Nat.min_le_right _ _, fun h => ?_⟩
  · rw [hlengths, assigned, List.length_map, List.length_range]
  · rw [hlengths]
    exact getD_assigned_ne_zero_iff (by rw [length_spread, hsum, hdepths])
      (fun n h => (hvalues n h).1) symbol
  · rcases Nat.eq_zero_or_pos n with rfl | hpos
    · exact Nat.zero_le _
    · exact (hvalues n (hperm.mem_iff.1 (List.mem_filter.2 ⟨hn, by simpa using hpos.ne'⟩))).2
  · rw [List.countP_eq_length_filter, hperm.length_eq, length_spread, hsum, hdepths]
  · rw [hcovered, Nat.min_eq_right (henough h)]

/-! ### Codes of the lengths -/

theorem countsOf_eq_reverse (lengths : List ℕ) :
    countsOf lengths = (tally Code.maxLength (lengths.filter (· ≠ 0))).reverse := by
  refine List.ext_getElem (by simp) fun i hi _ => ?_
  rw [length_countsOf] at hi
  have hplace : Code.maxLength - (Code.maxLength - 1 - i) = i + 1 := by omega
  rw [getElem_countsOf, List.getElem_reverse]
  simp only [tally, List.getElem_map, List.getElem_range, List.length_map, List.length_range, hplace]
  exact (List.count_filter (by simp)).symm

theorem covered_mono {limit more : ℕ} {lengths : List ℕ} (h : ∀ n ∈ lengths, n ≤ limit) :
    covered (limit + more) lengths = 2 ^ more * covered limit lengths := by
  rw [covered, covered, ← List.sum_map_mul_left]
  refine congrArg List.sum (List.map_congr_left fun n hn => ?_)
  rw [← Nat.pow_add]
  congr 1
  have := h n hn
  omega

section

variable {lengths : List ℕ}

theorem nonzero_of_short (hshort : ∀ n ∈ lengths, n ≤ Code.maxLength) :
    ∀ n ∈ lengths.filter (· ≠ 0), 0 < n ∧ n ≤ Code.maxLength := by
  intro n hn
  obtain ⟨hmem, hne⟩ := List.mem_filter.1 hn
  exact ⟨Nat.pos_of_ne_zero (by simpa using hne), hshort n hmem⟩

theorem behind_countsOf (hshort : ∀ n ∈ lengths, n ≤ Code.maxLength) :
    behind 0 (countsOf lengths) = covered Code.maxLength (lengths.filter (· ≠ 0)) := by
  rw [countsOf_eq_reverse, behind, List.foldl_reverse]
  exact (weight_tally (nonzero_of_short hshort)).1

theorem size_symbols (hshort : ∀ n ∈ lengths, n ≤ Code.maxLength) :
    (Code.ofLengths lengths).symbols.size = lengths.countP (· ≠ 0) := by
  have hsize : (Code.ofLengths lengths).symbols.size = (countsOf lengths).sum := by
    rw [Code.ofLengths, List.size_toArray, List.length_flatMap, countsOf]
    exact congrArg List.sum (List.map_congr_left fun i _ => length_symbolsOf lengths (i + 1))
  rw [hsize, countsOf_eq_reverse, List.sum_reverse, (weight_tally (nonzero_of_short hshort)).2,
    List.countP_eq_length_filter]

end

namespace Allotted

variable {limit : ℕ} {occurrences lengths : List ℕ}

theorem behind_eq (h : Allotted limit occurrences lengths) (hlimit : limit ≤ Code.maxLength) :
    behind 0 (countsOf lengths) = 2 ^ (Code.maxLength - limit) *
      Deflate.covered limit (lengths.filter (· ≠ 0)) := by
  rw [behind_countsOf fun n hn => (h.short n hn).trans hlimit,
    ← covered_mono fun n hn => h.short n (List.mem_filter.1 hn).1, Nat.add_sub_cancel' hlimit]

theorem fits (h : Allotted limit occurrences lengths) (hlimit : limit ≤ Code.maxLength) :
    Fits lengths where
  cover := by
    rw [h.behind_eq hlimit]
    refine (Nat.mul_le_mul_left _ h.covered).trans_eq ?_
    rw [← Nat.pow_add, Nat.sub_add_cancel hlimit]
  short n hn := (h.short n hn).trans hlimit

theorem isComplete (h : Allotted limit occurrences lengths) (hlimit : limit ≤ Code.maxLength)
    (htwo : 2 ≤ occurrences.countP (· ≠ 0)) : (Code.ofLengths lengths).isComplete := by
  have hbehind := h.behind_eq hlimit
  rw [h.complete htwo, ← Nat.pow_add, Nat.sub_add_cancel hlimit] at hbehind
  exact beq_iff_eq.2 hbehind

theorem isUsable (h : Allotted limit occurrences lengths) (hlimit : limit ≤ Code.maxLength) :
    (Code.ofLengths lengths).isUsable := by
  rw [Code.isUsable, Bool.or_eq_true, decide_eq_true_eq,
    size_symbols fun n hn => (h.short n hn).trans hlimit, h.number]
  rcases Nat.lt_or_ge (occurrences.countP (· ≠ 0)) 2 with hfew | hmany
  · exact .inr (Nat.le_of_lt_succ hfew)
  · exact .inl (h.isComplete hlimit hmany)

end Allotted
end Telemetry.Deflate
