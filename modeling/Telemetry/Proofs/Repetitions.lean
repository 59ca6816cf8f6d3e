import Telemetry.Deflate.Matches
import Telemetry.Proofs.Bytes

/-! What the search for repetitions finds. A chain only leads back, so a match is a place before the
position where the bytes have been compared; whichever matches are taken, the tokens of the blocks
stand for the text, one behind the other. -/

namespace Telemetry.Deflate

open Bytes (byteAt)

/-! ### Tokens -/

/-- As many bytes as stand `distance` bytes before `i`, of a length and from a distance that can be
written. -/
structure Repeats (data : ByteArray) (i length distance : ℕ) : Prop where
  least : 3 ≤ length
  most : length ≤ longestMatch
  back : 0 < distance
  reach : distance ≤ window
  begins : distance ≤ i
  ends : i + length ≤ data.size
  same : ∀ k < length, byteAt data (i - distance + k) = byteAt data (i + k)

/-- The token stands for the bytes from `i` on. -/
def Token.StandsAt (data : ByteArray) (i : ℕ) : Token → Prop
  | literal byte => i < data.size ∧ byte = byteAt data i
  | repetition length distance => Repeats data i length distance

/-- The tokens stand for the bytes from `i` to `j`. -/
def Covers (data : ByteArray) : ℕ → List Token → ℕ → Prop
  | i, [], j => i = j
  | i, t :: ts, j => t.StandsAt data i ∧ Covers data (i + t.size) ts j

section

variable {data : ByteArray} {i j k : ℕ} {ts us : List Token} {t : Token}

theorem Covers.append (h : Covers data i ts j) (h' : Covers data j us k) :
    Covers data i (ts ++ us) k := by
  induction ts generalizing i with
  | nil =>
    obtain rfl : i = j := h
    exact h'
  | cons t ts ih => exact ⟨h.1, ih h.2⟩

theorem Covers.snoc (h : Covers data i ts j) (ht : t.StandsAt data j) :
    Covers data i (ts ++ [t]) (j + t.size) := h.append ⟨ht, rfl⟩

theorem Token.StandsAt.size_pos (h : t.StandsAt data i) : 0 < t.size := by
  cases t with
  | literal byte => exact Nat.one_pos
  | repetition length distance => exact Nat.lt_of_lt_of_le (by decide) h.least

theorem Token.StandsAt.fits (h : t.StandsAt data i) : i + t.size ≤ data.size := by
  cases t with
  | literal byte => exact h.1
  | repetition length distance => exact h.ends

theorem Token.StandsAt.room_le (h : t.StandsAt data i) : t.room ≤ t.size := by
  cases t with
  | literal byte => exact le_rfl
  | repetition length distance => exact h.least

end

/-! ### Chains -/

theorem agreement_eq (data : ByteArray) (i j n k : ℕ) :
    agreement data i j n k ≤ k + n ∧ k ≤ agreement data i j n k ∧
      ∀ m, k ≤ m → m < agreement data i j n k → byteAt data (i + m) = byteAt data (j + m) := by
  induction n generalizing k with
  | zero => exact ⟨le_rfl, le_rfl, fun m hk hm => absurd hm (by rw [agreement]; omega)⟩
  | succ n ih =>
    obtain ⟨hmost, hleast, hsame⟩ := ih (k + 1)
    rw [agreement]
    split_ifs with heq
    · refine ⟨by omega, by omega, fun m hk hm => ?_⟩
      rcases Nat.eq_or_lt_of_le hk with rfl | hlt
      · exact beq_iff_eq.1 heq
      · exact hsame m hlt hm
    · exact ⟨by omega, le_rfl, fun m hk hm => absurd hm (by omega)⟩

namespace Chains

/-- Only positions up to `pos` are in the chains, and what is before one of them is before `pos`. -/
structure Behind (c : Chains) (pos : ℕ) : Prop where
  links : ∀ i, c.links.getD i 0 = 0 ∨ c.links.getD i 0 < pos
  heads : ∀ h, c.heads.getD h 0 ≤ pos

theorem Behind.mono {c : Chains} {pos pos' : ℕ} (h : c.Behind pos) (hle : pos ≤ pos') :
    c.Behind pos' :=
  ⟨fun i => (h.links i).imp_right (·.trans_le hle), fun i => (h.heads i).trans hle⟩

theorem getD_setIfInBounds (a : Array ℕ) (i j v : ℕ) :
    (a.setIfInBounds i v).getD j 0 = v ∨ (a.setIfInBounds i v).getD j 0 = a.getD j 0 := by
  simp only [Array.getD_eq_getD_getElem?, Array.getElem?_setIfInBounds]
  split_ifs with hij hi
  · exact .inl rfl
  · subst hij
    exact .inr (by rw [Array.getElem?_eq_none (Nat.not_lt.1 hi)])
  · exact .inr rfl

theorem Behind.insert {c : Chains} {pos i : ℕ} (h : c.Behind pos) (hi : pos ≤ i)
    (hheads : ∀ h, c.heads.getD h 0 = 0 ∨ c.heads.getD h 0 < i) (data : ByteArray) :
    (c.insert data i).Behind i := by
  rw [Chains.insert]
  split_ifs
  · refine ⟨fun j => ?_, fun j => ?_⟩
    · rcases getD_setIfInBounds c.links (i % window) j (c.heads.getD (hash data i) 0) with hj | hj
      · rw [hj]
        exact hheads _
      · rw [hj]
        exact (h.mono hi).links j
    · rcases getD_setIfInBounds c.heads (hash data i) j i with hj | hj
      · exact hj.le
      · rw [hj]
        exact (h.mono hi).heads j
  · exact h.mono hi

theorem behind_start (data : ByteArray) : (empty.insert data 0).Behind 0 := by
  have hnone (i : ℕ) : empty.links.getD i 0 = 0 ∧ empty.heads.getD i 0 = 0 := by
    simp only [empty, Array.getD_eq_getD_getElem?, Array.getElem?_replicate]
    constructor <;> split_ifs <;> rfl
  exact Behind.insert ⟨fun i => .inl (hnone i).1, fun i => (hnone i).2.le⟩ le_rfl
    (fun i => .inl (hnone i).2) data

theorem Behind.insertAll {c : Chains} {pos : ℕ} (h : c.Behind pos) (data : ByteArray) (n : ℕ) :
    (Chains.insertAll data n (pos + 1) c).Behind (pos + n) := by
  induction n generalizing pos c with
  | zero => exact h
  | succ n ih =>
    rw [Chains.insertAll, Nat.add_comm n, ← Nat.add_assoc]
    exact ih (h.insert (Nat.le_succ pos) (fun i => .inr (Nat.lt_succ_of_le (h.heads i))) data)

end Chains

/-- A match longer than `least` that begins before `pos`, at most `reach` back. -/
structure Found (data : ByteArray) (pos room reach least : ℕ) (m : Match) : Prop where
  longer : least < m.length
  most : m.length ≤ room
  back : 0 < m.distance
  reach : m.distance ≤ reach
  begins : m.distance ≤ pos
  same : ∀ k < m.length, byteAt data (pos - m.distance + k) = byteAt data (pos + k)

section

variable {data : ByteArray} {c : Chains} {pos room reach least : ℕ}

theorem found_candidate {candidate : ℕ} {best : Match} (hcandidate : candidate < pos)
    (hreach : pos - candidate ≤ reach) (hleast : least ≤ best.length)
    (hlonger : best.length < agreement data candidate pos room 0) :
    Found data pos room reach least ⟨agreement data candidate pos room 0, pos - candidate⟩ := by
  obtain ⟨hmost, -, hsame⟩ := agreement_eq data candidate pos room 0
  refine ⟨hleast.trans_lt hlonger, by simpa using hmost, Nat.sub_pos_of_lt hcandidate, hreach,
    Nat.sub_le _ _, fun k hk => ?_⟩
  simp only [Nat.sub_sub_self hcandidate.le]
  exact hsame k (Nat.zero_le k) hk

/-- The search only ever changes its mind for a longer match. -/
theorem Chains.Behind.search_eq (hc : c.Behind pos) (data : ByteArray) (room reach effort : ℕ)
    {candidate : ℕ} {best : Match} (hcandidate : candidate = 0 ∨ candidate < pos) (hleast : least ≤ best.length)
    (hbest : best = ⟨least, 0⟩ ∨ Found data pos room reach least best) :
    c.search data pos room reach effort candidate best = ⟨least, 0⟩ ∨
      Found data pos room reach least (c.search data pos room reach effort candidate best) := by
  induction effort using Nat.strong_induction_on generalizing candidate best with
  | _ effort ih =>
    rw [Chains.search]
    split_ifs with hstop halike
    · exact hbest
    · push Not at hstop
      obtain ⟨heffort, hcandidate', hreach⟩ := hstop
      have hfound (hlonger : best.length < agreement data candidate pos room 0) :=
        found_candidate (hcandidate.resolve_left hcandidate') hreach hleast hlonger
      dsimp only
      generalize hbest' : (if best.length < agreement data candidate pos room 0 then
        (⟨agreement data candidate pos room 0, pos - candidate⟩ : Match) else best) = best'
      have hbetter : least ≤ best'.length ∧
          (best' = ⟨least, 0⟩ ∨ Found data pos room reach least best') := by
        subst hbest'
        split_ifs with hlonger
        · exact ⟨hleast.trans hlonger.le, .inr (hfound hlonger)⟩
        · exact ⟨hleast, hbest⟩
      split_ifs
      · exact hbetter.2
      · exact ih _ (by omega) (hc.links _) hbetter.1 hbetter.2
    · exact ih _ (by omega) (hc.links _) hleast hbest

theorem Chains.Behind.longest_eq (hc : c.Behind pos) (data : ByteArray) (room reach least : ℕ) :
    (c.longest data pos room reach least).distance = 0 ∧
        (c.longest data pos room reach least).length ≤ least ∨
      Found data pos room reach least (c.longest data pos room reach least) := by
  have hsearch (effort : ℕ) := hc.search_eq data room reach effort (hc.links (pos % window))
    (show least ≤ (⟨least, 0⟩ : Match).length from le_rfl) (.inl rfl)
  simp only [Chains.longest]
  generalize hbest : (if room ≤ least then (⟨least, 0⟩ : Match) else _) = best
  have hfound : best = ⟨least, 0⟩ ∨ Found data pos room reach least best := by
    subst hbest
    by_cases hroom : room ≤ least
    · rw [if_pos hroom]
      exact .inl rfl
    · rw [if_neg hroom]
      exact hsearch _
  split_ifs
  · exact .inl ⟨rfl, Nat.zero_le _⟩
  · exact hfound.imp_left fun h => by rw [h]; exact ⟨rfl, le_rfl⟩

end

/-! ### Blocks -/

structure Block.Sound (data : ByteArray) (b : Block) : Prop where
  covers : Covers data b.start b.tokens.toList (b.start + b.size)
  kept : b.kept → b.size ≤ window

/-- The blocks stand for the bytes from `i` to `j`. -/
def Tiles (data : ByteArray) : ℕ → List Block → ℕ → Prop
  | i, [], j => i = j
  | i, b :: bs, j => b.start = i ∧ b.Sound data ∧ Tiles data (i + b.size) bs j

theorem Tiles.snoc {data : ByteArray} {i : ℕ} {bs : List Block} {b : Block}
    (h : Tiles data i bs b.start) (hb : b.Sound data) :
    Tiles data i (bs ++ [b]) (b.start + b.size) := by
  induction bs generalizing i with
  | nil =>
    obtain rfl : i = b.start := h
    exact ⟨rfl, hb, rfl⟩
  | cons first bs ih => exact ⟨h.1, h.2.1, ih h.2.2⟩

/-- A full block is long: only bytes that a match stands for take less space than one. -/
theorem Block.lt_size_of_isFull {b : Block} (hroom : b.room ≤ b.size)
    (htokens : b.tokens.size ≤ b.size) (h : b.isFull) : 31 * 1024 < b.size := by
  simp only [isFull, Bool.or_eq_true, Bool.and_eq_true, decide_eq_true_eq] at h
  simp only [used, capacity] at h
  omega

namespace Search

/-- The tokens of a search stand for the text up to `i`. -/
structure Reached (data : ByteArray) (s : Search) (i : ℕ) : Prop where
  chains : s.chains.Behind s.pos
  reach : s.reach ≤ window
  tiles : Tiles data 0 s.closed.toList s.current.start
  long : ∀ b ∈ s.closed.toList, 31 * 1024 < b.size
  covers : Covers data s.current.start s.current.tokens.toList i
  size : s.current.start + s.current.size = i
  fits : i ≤ data.size
  room : s.current.room ≤ s.current.size
  tokens : s.current.tokens.size ≤ s.current.size

/-- All up to the position is in the tokens, but for a match that waits. -/
def Sound (data : ByteArray) (s : Search) : Prop :=
  match s.waiting with
  | none => s.Reached data s.pos
  | some m => s.Reached data (s.pos - 1) ∧ Repeats data (s.pos - 1) m.length m.distance

namespace Reached

variable {data : ByteArray} {s : Search} {i : ℕ}

theorem push (h : s.Reached data i) {t : Token} (ht : t.StandsAt data i) :
    (s.push t).Reached data (i + t.size) where
  chains := h.chains
  reach := h.reach
  tiles := h.tiles
  long := h.long
  covers := by
    simp only [Search.push, Block.push, Array.toList_push]
    exact h.covers.snoc ht
  size := by
    simp only [Search.push, Block.push, ← Nat.add_assoc, h.size]
  fits := ht.fits
  room := Nat.add_le_add h.room ht.room_le
  tokens := by
    have := h.tokens
    have := ht.size_pos
    simp only [Search.push, Block.push, Array.size_push]
    omega

theorem pushByte (h : s.Reached data i) (hi : i < data.size) :
    (s.pushByte data i).Reached data (i + 1) :=
  h.push (t := .literal (byteAt data i)) ⟨hi, rfl⟩

theorem pushMatch (h : s.Reached data i) {m : Match} (hm : Repeats data i m.length m.distance) :
    (s.pushMatch m).Reached data (i + m.length) :=
  h.push (t := .repetition m.length m.distance) hm

theorem move (h : s.Reached data i) (n : ℕ) : (s.move data n).Reached data i :=
  ⟨h.chains.insertAll data n, Nat.min_le_left _ _, h.tiles, h.long, h.covers, h.size, h.fits,
    h.room, h.tokens⟩

theorem wait (h : s.Reached data i) (waiting : Option Match) :
    Reached data { s with waiting } i :=
  ⟨h.chains, h.reach, h.tiles, h.long, h.covers, h.size, h.fits, h.room,
    h.tokens⟩

theorem offer (h : s.Reached data s.pos) {m : Match}
    (hm : Repeats data s.pos m.length m.distance) :
    Sound data (s.offer data m) ∧ s.pos < (s.offer data m).pos := by
  have hlength := hm.least
  rw [Search.offer]
  split_ifs
  · refine ⟨((h.wait none).pushMatch hm).move m.length, ?_⟩
    simp only [Search.move, Search.pushMatch, Search.push]
    omega
  · refine ⟨⟨(h.wait (some m)).move 1, hm⟩, ?_⟩
    simp only [Search.move]
    omega

theorem closed (h : s.Reached data i) (hi : i ≤ s.pos) :
    Tiles data 0 s.close.closed.toList i := by
  simp only [close, Array.toList_push]
  rw [← h.size]
  refine h.tiles.snoc
    (b := { s.current with kept := decide (s.pos - s.current.start ≤ s.reach) })
    ⟨?_, fun hkept => ?_⟩
  · rw [h.size]
    exact h.covers
  · have := h.size
    have := h.reach
    have := of_decide_eq_true hkept
    simp only
    omega

theorem close (h : s.Reached data i) (hi : i ≤ s.pos) (hfull : s.current.isFull) :
    s.close.Reached data i where
  chains := h.chains
  reach := h.reach
  tiles := by
    have := h.closed hi
    rwa [← h.size] at this
  long := by
    simp only [Search.close, Array.toList_push, List.forall_mem_append, List.forall_mem_singleton]
    exact ⟨h.long, Block.lt_size_of_isFull h.room h.tokens hfull⟩
  covers := h.size
  size := h.size
  fits := h.fits
  room := le_rfl
  tokens := le_rfl

end Reached
section

variable {data : ByteArray} {s : Search}

theorem repeats_of_found {pos reach least : ℕ} {m : Match}
    (h : Found data pos (min longestMatch (data.size - pos)) reach least m) (hleast : 2 ≤ least)
    (hreach : reach ≤ window) (hpos : pos ≤ data.size) : Repeats data pos m.length m.distance := by
  have hlonger := h.longer
  have hmost := h.most
  exact ⟨by omega, by omega, h.back, h.reach.trans hreach, h.begins, by omega, h.same⟩

theorem Sound.close (h : Sound data s) (hfull : s.current.isFull) : Sound data s.close := by
  have hwaiting : s.close.waiting = s.waiting := rfl
  unfold Sound at h ⊢
  rw [hwaiting]
  split at h
  · exact Reached.close h le_rfl hfull
  · exact ⟨h.1.close (Nat.sub_le _ _) hfull, h.2⟩

theorem Sound.close_if {t : Search} {i : ℕ} (h : Sound data t ∧ i < t.pos) :
    Sound data (if t.current.isFull then t.close else t) ∧
      i < (if t.current.isFull then t.close else t).pos := by
  split_ifs with hfull
  · exact ⟨h.1.close hfull, h.2⟩
  · exact h

theorem Sound.step (h : Sound data s) (hpos : s.pos < data.size) :
    Sound data (s.step data) ∧ s.pos < (s.step data).pos := by
  simp only [Search.step]
  generalize hreach : min s.reach (window - min longestMatch (data.size - s.pos)) = reach
  refine Sound.close_if ?_
  unfold Sound at h
  split at h
  · next hwaiting =>
    have hshort : reach ≤ window := hreach ▸ (Nat.min_le_left _ _).trans h.reach
    have hfound := h.chains.longest_eq data (min longestMatch (data.size - s.pos)) reach 2
    have hs : Reached data { s with reach, waiting := none } s.pos :=
      ⟨h.chains, hshort, h.tiles, h.long, h.covers, h.size, h.fits, h.room, h.tokens⟩
    simp only [hwaiting, Option.elim_none]
    split_ifs with hnone
    · exact ⟨(hs.pushByte hpos).move 1, Nat.lt_succ_self _⟩
    · exact hs.offer (repeats_of_found (hfound.resolve_left fun h => hnone h.1) le_rfl hshort
        hpos.le)
  · next m hwaiting =>
    obtain ⟨h, hm⟩ := h
    have hleast := hm.least
    have hbegins := hm.begins
    have hback := hm.back
    have hprevious : s.pos - 1 + 1 = s.pos := by omega
    have hshort : reach ≤ window := hreach ▸ (Nat.min_le_left _ _).trans h.reach
    have hfound := h.chains.longest_eq data (min longestMatch (data.size - s.pos)) reach m.length
    have hs : Reached data { s with reach, waiting := some m } (s.pos - 1) :=
      ⟨h.chains, hshort, h.tiles, h.long, h.covers, h.size, h.fits, h.room, h.tokens⟩
    simp only [hwaiting, Option.elim_some]
    split_ifs with hlonger
    · -- the byte before goes out alone, and the longer match is taken in place of `m`
      have hbyte := hs.pushByte (by omega)
      rw [hprevious] at hbyte
      exact hbyte.offer (repeats_of_found (hfound.resolve_left fun h => by omega) (by omega)
        hshort hpos.le)
    · have hend : s.pos - 1 + m.length = s.pos + (m.length - 1) := by omega
      have hmatch := ((hs.wait none).pushMatch hm).move (m.length - 1)
      rw [hend] at hmatch
      exact ⟨hmatch, Nat.lt_add_of_pos_right (by omega)⟩

theorem Sound.run {fuel : ℕ} (h : Sound data s) (hfuel : data.size ≤ s.pos + fuel) :
    (s.run data fuel).Reached data data.size ∧ (s.run data fuel).pos = data.size := by
  have hend {s : Search} (h : Sound data s) (hpos : data.size ≤ s.pos) :
      s.Reached data data.size ∧ s.pos = data.size := by
    unfold Sound at h
    split at h
    · have hend : s.pos = data.size := Nat.le_antisymm h.fits hpos
      exact ⟨hend ▸ h, hend⟩
    · -- a match that waits ends behind the position
      have := h.2.least
      have := h.2.ends
      omega
  induction fuel generalizing s with
  | zero => exact hend h hfuel
  | succ fuel ih =>
    rw [Search.run]
    split_ifs with hpos
    · exact hend h hpos
    · obtain ⟨hstep, hmore⟩ := h.step (Nat.not_le.1 hpos)
      exact ih hstep (by omega)

end
end Search

theorem blocksOf_ne_nil (data : ByteArray) : (blocksOf data).toList ≠ [] := by
  simp [blocksOf, Search.close]

/-- The blocks stand for the text, and all of them but the last are long. -/
theorem tiles_blocksOf (data : ByteArray) : Tiles data 0 (blocksOf data).toList data.size ∧
    ∀ b ∈ (blocksOf data).toList.dropLast, 31 * 1024 < b.size := by
  have hstart : Search.Sound data (Search.start data) := ⟨Chains.behind_start data, Nat.zero_le _,
    rfl, by simp [Search.start], rfl, rfl, Nat.zero_le _, le_rfl, le_rfl⟩
  have hfuel : data.size ≤ (Search.start data).pos + data.size := Nat.le_add_left _ _
  obtain ⟨hreached, hpos⟩ := hstart.run hfuel
  refine ⟨hreached.closed hpos.ge, ?_⟩
  have hlast : (blocksOf data).toList.dropLast =
      ((Search.start data).run data data.size).closed.toList := by
    rw [blocksOf, Search.close, Array.toList_push, List.dropLast_concat]
  rw [hlast]
  exact hreached.long

end Telemetry.Deflate
