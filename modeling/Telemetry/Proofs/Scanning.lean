import Telemetry.Proofs.Spelling

/-! Whatever the scanner finds is written there. A number that ends has its parts in their order, a
string that ends has only bytes that may stand in it and whole escapes, and a word goes on as it has
begun; so a text in which there are tokens is made of these with white space around them. -/

namespace Telemetry.Json

open Text (digitByte?)

theorem exists_offset {low high b : UInt8} (hlow : low ≤ b) (hhigh : b ≤ high) :
    ∃ k ≤ high.toNat - low.toNat, b = UInt8.ofNat (low.toNat + k) := by
  have hlow' : low.toNat ≤ b.toNat := hlow
  have hhigh' : b.toNat ≤ high.toNat := hhigh
  have hb := b.toNat_lt
  refine ⟨b.toNat - low.toNat, by omega, UInt8.toNat_inj.1 ?_⟩
  rw [UInt8.toNat_ofNat']
  omega

theorem exists_digit {b : UInt8} {d : ℕ} (h : digitByte? b = some d) :
    ∃ c : Char, c.isDigit ∧ c.toUInt8 = b := by
  unfold digitByte? at h
  split_ifs at h with hb
  obtain ⟨k, hk, rfl⟩ := exists_offset hb.1 hb.2
  change k ≤ 9 at hk
  refine ⟨Nat.digitChar k, ?_, ?_⟩ <;> interval_cases k <;> rfl

theorem isHex_of_hexDigit? {b : UInt8} {d : ℕ} (h : hexDigit? b = some d) : IsHex d b := by
  unfold hexDigit? at h
  split at h
  · next d' hdigit =>
    obtain rfl := Option.some.inj h
    obtain ⟨c, hc, rfl⟩ := exists_digit hdigit
    obtain ⟨k, hk, rfl⟩ := exists_digitChar hc
    rw [digitByte_toUInt8 hc] at hdigit
    obtain rfl := Option.some.inj hdigit
    interval_cases k <;> exact ⟨by decide, Or.inl rfl⟩
  · split_ifs at h with hlower hupper
    · obtain ⟨k, hk, rfl⟩ := exists_offset hlower.1 hlower.2
      obtain rfl := Option.some.inj h
      change k ≤ 5 at hk
      interval_cases k <;> exact ⟨by decide, Or.inl rfl⟩
    · obtain ⟨k, hk, rfl⟩ := exists_offset hupper.1 hupper.2
      obtain rfl := Option.some.inj h
      change k ≤ 5 at hk
      interval_cases k <;> exact ⟨by decide, Or.inr rfl⟩

theorem mem_escapes {b c : UInt8} (h : escaped? b = some c) : (b, c) ∈ escapes := by
  unfold escaped? at h
  split_ifs at h with hself hb hf hn hr ht
  · obtain rfl := Option.some.inj h
    simp only [Bool.or_eq_true, beq_iff_eq] at hself
    rcases hself with (rfl | rfl) | rfl <;> simp [escapes]
  · simp [escapes, ← Option.some.inj h, beq_iff_eq.1 hb]
  · simp [escapes, ← Option.some.inj h, beq_iff_eq.1 hf]
  · simp [escapes, ← Option.some.inj h, beq_iff_eq.1 hn]
  · simp [escapes, ← Option.some.inj h, beq_iff_eq.1 hr]
  · simp [escapes, ← Option.some.inj h, beq_iff_eq.1 ht]

theorem Numeral.Whole.concat {whole : List Char} (h : Whole whole) (hne : whole ≠ ['0']) {c : Char}
    (hc : c.isDigit) : Whole (whole ++ [c]) ∧ whole ++ [c] ≠ ['0'] := by
  obtain ⟨w, ws, rfl⟩ := List.exists_cons_of_ne_nil h.ne_nil
  refine ⟨⟨by simp, fun d hd => ?_, fun hzero => ?_⟩, by simp⟩
  · rcases List.mem_append.1 hd with hd | hd
    · exact h.digits d hd
    · exact List.mem_singleton.1 hd ▸ hc
  · exact absurd (h.leading (by simpa using hzero)) hne

namespace NumberScan

/-- What a number may go on with, up to where it may end. -/
def Ends (n : NumberScan) (bytes : List UInt8) : Prop :=
  ∃ m k, bytes.foldlM push? n = some m ∧ m.finish? = some k

variable {n : NumberScan} {b : UInt8} {bytes : List UInt8}

theorem ends_cons : n.Ends (b :: bytes) ↔ ∃ m, n.push? b = some m ∧ m.Ends bytes := by
  constructor
  · rintro ⟨m, k, hm, hk⟩
    rw [List.foldlM_cons] at hm
    obtain ⟨n', hn', hm⟩ := Option.bind_eq_some_iff.1 hm
    exact ⟨n', hn', m, k, hm, hk⟩
  · rintro ⟨n', hn', m, k, hm, hk⟩
    refine ⟨m, k, ?_, hk⟩
    rw [List.foldlM_cons, hn']
    exact hm

theorem Ends.exists_cons (h : n.Ends bytes) (hn : n.finish? = none) :
    ∃ b rest m, bytes = b :: rest ∧ n.push? b = some m ∧ m.Ends rest := by
  cases bytes with
  | nil =>
    obtain ⟨m, k, hm, hk⟩ := h
    obtain rfl := Option.some.inj hm
    simp [hn] at hk
  | cons b rest =>
    obtain ⟨m, hm, hends⟩ := ends_cons.1 h
    exact ⟨b, rest, m, rfl, hm, hends⟩

theorem digits_of_power (hn : n.part = .power) (h : n.Ends bytes) :
    ∃ cs : List Char, (∀ c ∈ cs, c.isDigit) ∧ bytes = cs.map Char.toUInt8 := by
  induction bytes generalizing n with
  | nil => exact ⟨[], by simp, rfl⟩
  | cons b bytes ih =>
    obtain ⟨m, hm, hends⟩ := ends_cons.1 h
    simp only [push?, hn] at hm
    cases hb : digitByte? b with
    | none => simp [hb] at hm
    | some d =>
      simp only [hb, Option.some.injEq] at hm
      obtain ⟨c, hc, rfl⟩ := exists_digit hb
      obtain ⟨cs, hcs, rfl⟩ := ih (hm ▸ rfl) hends
      exact ⟨c :: cs, by simpa [hc] using hcs, rfl⟩

theorem digits_of_markSign (hn : n.part = .markSign) (h : n.Ends bytes) :
    ∃ cs : List Char, cs ≠ [] ∧ (∀ c ∈ cs, c.isDigit) ∧ bytes = cs.map Char.toUInt8 := by
  obtain ⟨b, rest, m, rfl, hm, hends⟩ := h.exists_cons (by simp [finish?, hn])
  simp only [push?, hn] at hm
  cases hb : digitByte? b with
  | none => simp [hb] at hm
  | some d =>
    simp only [hb, Option.some.injEq] at hm
    obtain ⟨c, hc, rfl⟩ := exists_digit hb
    obtain ⟨cs, hcs, rfl⟩ := digits_of_power (hm ▸ rfl) hends
    exact ⟨c :: cs, by simp, by simpa [hc] using hcs, rfl⟩

theorem scale_of_mark (hb : isMark b) (hn : n.part = .mark) (h : n.Ends bytes) :
    ∃ s : Scale, s.WellFormed ∧ b :: bytes = s.text.map Char.toUInt8 := by
  obtain ⟨mark, hmark, rfl⟩ : ∃ mark : Char, (mark = 'e' ∨ mark = 'E') ∧ mark.toUInt8 = b := by
    simp only [isMark, Bool.or_eq_true, beq_iff_eq] at hb
    rcases hb with rfl | rfl
    · exact ⟨'e', Or.inl rfl, rfl⟩
    · exact ⟨'E', Or.inr rfl, rfl⟩
  obtain ⟨b, rest, m, rfl, hm, hends⟩ := h.exists_cons (by simp [finish?, hn])
  simp only [push?, hn] at hm
  cases hb : digitByte? b with
  | none =>
    simp only [hb, beq_iff_eq] at hm
    split_ifs at hm with hminus hplus
    · obtain ⟨cs, hne, hcs, rfl⟩ := digits_of_markSign (Option.some.inj hm ▸ rfl) hends
      exact ⟨⟨mark, ['-'], cs⟩, ⟨hmark, by simp, hne, hcs⟩, by simp [Scale.text, hminus]⟩
    · obtain ⟨cs, hne, hcs, rfl⟩ := digits_of_markSign (Option.some.inj hm ▸ rfl) hends
      exact ⟨⟨mark, ['+'], cs⟩, ⟨hmark, by simp, hne, hcs⟩, by simp [Scale.text, hplus]⟩
  | some d =>
    simp only [hb, Option.some.injEq] at hm
    obtain ⟨c, hc, rfl⟩ := exists_digit hb
    obtain ⟨cs, hcs, rfl⟩ := digits_of_power (hm ▸ rfl) hends
    exact ⟨⟨mark, [], c :: cs⟩, ⟨hmark, by simp, by simp, by simpa [hc] using hcs⟩, rfl⟩

theorem digits_of_fraction (hn : n.part = .fraction) (h : n.Ends bytes) :
    ∃ (cs : List Char) (scale : Option Scale), (∀ c ∈ cs, c.isDigit) ∧ (∀ s ∈ scale, s.WellFormed) ∧
      bytes = (cs ++ scale.elim [] Scale.text).map Char.toUInt8 := by
  induction bytes generalizing n with
  | nil => exact ⟨[], none, by simp, by simp, rfl⟩
  | cons b bytes ih =>
    obtain ⟨m, hm, hends⟩ := ends_cons.1 h
    simp only [push?, hn] at hm
    cases hb : digitByte? b with
    | none =>
      simp only [hb, Option.ite_none_right_eq_some, Option.some.injEq] at hm
      obtain ⟨s, hs, htext⟩ := scale_of_mark hm.1 (hm.2 ▸ rfl) hends
      exact ⟨[], some s, by simp, by simpa using hs, htext⟩
    | some d =>
      simp only [hb, Option.some.injEq] at hm
      obtain ⟨c, hc, rfl⟩ := exists_digit hb
      obtain ⟨cs, scale, hcs, hscale, rfl⟩ := ih (hm ▸ rfl) hends
      exact ⟨c :: cs, scale, by simpa [hc] using hcs, hscale, rfl⟩

theorem digits_of_point (hn : n.part = .point) (h : n.Ends bytes) :
    ∃ (cs : List Char) (scale : Option Scale), cs ≠ [] ∧ (∀ c ∈ cs, c.isDigit) ∧
      (∀ s ∈ scale, s.WellFormed) ∧ bytes = (cs ++ scale.elim [] Scale.text).map Char.toUInt8 := by
  obtain ⟨b, rest, m, rfl, hm, hends⟩ := h.exists_cons (by simp [finish?, hn])
  simp only [push?, hn] at hm
  cases hb : digitByte? b with
  | none => simp [hb] at hm
  | some d =>
    simp only [hb, Option.some.injEq] at hm
    obtain ⟨c, hc, rfl⟩ := exists_digit hb
    obtain ⟨cs, scale, hcs, hscale, rfl⟩ := digits_of_fraction (hm ▸ rfl) hends
    exact ⟨c :: cs, scale, by simp, by simpa [hc] using hcs, hscale, rfl⟩

/-- A whole part that is at its end, and what follows it. -/
theorem literal_of_end (negative : Bool) {whole : List Char} (hwhole : Numeral.Whole whole)
    (hn : n.part = .zero ∨ n.part = .whole) (hbytes : ∀ b ∈ bytes.head?, digitByte? b = none)
    (h : n.Ends bytes) : ∃ l : Literal, l.WellFormed ∧ l.negative = negative ∧
      whole.map Char.toUInt8 ++ bytes = (l.whole ++ l.tail).map Char.toUInt8 := by
  cases bytes with
  | nil => exact ⟨⟨negative, whole, [], none⟩, ⟨hwhole, by simp, by simp⟩, rfl, by simp [Literal.tail]⟩
  | cons b bytes =>
    obtain ⟨m, hm, hends⟩ := ends_cons.1 h
    have hpush : n.push? b = if b == '.'.toUInt8 then some { n with part := .point }
        else if isMark b then some { n with part := .mark } else none := by
      rcases hn with hn | hn <;> simp only [push?, hn, hbytes b rfl]
    rw [hpush] at hm
    split_ifs at hm with hpoint hmark
    · obtain ⟨cs, scale, hne, hcs, hscale, rfl⟩ := digits_of_point (Option.some.inj hm ▸ rfl) hends
      exact ⟨⟨negative, whole, cs, scale⟩, ⟨hwhole, hcs, hscale⟩, rfl,
        by simp [Literal.tail, hne, beq_iff_eq.1 hpoint]⟩
    · obtain ⟨s, hs, htext⟩ := scale_of_mark hmark (Option.some.inj hm ▸ rfl) hends
      exact ⟨⟨negative, whole, [], some s⟩, ⟨hwhole, by simp, by simpa using hs⟩, rfl,
        by simp [Literal.tail, htext]⟩

theorem literal_of_whole (negative : Bool) {whole : List Char} (hwhole : Numeral.Whole whole)
    (hleading : whole ≠ ['0']) (hn : n.part = .whole) (h : n.Ends bytes) :
    ∃ l : Literal, l.WellFormed ∧ l.negative = negative ∧
      whole.map Char.toUInt8 ++ bytes = (l.whole ++ l.tail).map Char.toUInt8 := by
  induction bytes generalizing n whole with
  | nil => exact literal_of_end negative hwhole (Or.inr hn) (by simp) h
  | cons b bytes ih =>
    cases hb : digitByte? b with
    | none => exact literal_of_end negative hwhole (Or.inr hn) (by simpa using hb) h
    | some d =>
      obtain ⟨m, hm, hends⟩ := ends_cons.1 h
      simp only [push?, hn, hb, Option.some.injEq] at hm
      obtain ⟨c, hc, rfl⟩ := exists_digit hb
      obtain ⟨hlonger, hleading'⟩ := hwhole.concat hleading hc
      obtain ⟨l, hl, hnegative, htext⟩ := ih hlonger hleading' (hm ▸ rfl) hends
      exact ⟨l, hl, hnegative, by rw [← htext]; simp⟩

theorem literal_of_digit (negative : Bool) {c : Char} (hc : c.isDigit)
    (h : Ends (start (if c = '0' then .zero else .whole) negative (c.toNat - 48)) bytes) :
    ∃ l : Literal, l.WellFormed ∧ l.negative = negative ∧
      c.toUInt8 :: bytes = (l.whole ++ l.tail).map Char.toUInt8 := by
  have hwhole : Numeral.Whole [c] := ⟨by simp, by simpa using hc, by simp⟩
  by_cases hzero : c = '0'
  · -- another digit cannot follow
    have hbytes : ∀ b ∈ bytes.head?, digitByte? b = none := by
      intro b hb
      obtain ⟨rest, rfl⟩ : ∃ rest, bytes = b :: rest := List.head?_eq_some_iff.1 hb
      obtain ⟨m, hm, -⟩ := ends_cons.1 h
      cases hdigit : digitByte? b with
      | none => rfl
      | some d => simp [push?, start, hzero, hdigit] at hm
    exact literal_of_end negative hwhole (Or.inl (if_pos hzero)) hbytes h
  · exact literal_of_whole negative hwhole (by simpa using hzero) (if_neg hzero) h

theorem literal_of_sign (h : Ends (start .sign true 0) bytes) :
    ∃ l : Literal, l.WellFormed ∧ '-'.toUInt8 :: bytes = l.text.map Char.toUInt8 := by
  obtain ⟨b, rest, m, rfl, hm, hends⟩ := h.exists_cons rfl
  cases hb : digitByte? b with
  | none => simp [push?, start, hb] at hm
  | some d =>
    obtain ⟨c, hc, rfl⟩ := exists_digit hb
    rw [push_sign_digit hc] at hm
    obtain rfl := Option.some.inj hm
    obtain ⟨l, hl, hnegative, htext⟩ := literal_of_digit true hc hends
    exact ⟨l, hl, by simp [Literal.text, hnegative, htext]⟩

end NumberScan

namespace Scanner

variable {done tokens : List Token} {bytes : List UInt8}

theorem exists_of_run? {lexeme : Lexeme} (h : run? ⟨done, lexeme⟩ bytes = some tokens)
    (hlexeme : finish? ⟨done, lexeme⟩ = none) :
    ∃ b rest s, bytes = b :: rest ∧ step ⟨done, lexeme⟩ b = some s ∧ s.run? rest = some tokens := by
  cases bytes with
  | nil => simp [run?, hlexeme] at h
  | cons b rest =>
    rw [run?_cons] at h
    obtain ⟨s, hs, h⟩ := Option.bind_eq_some_iff.1 h
    exact ⟨b, rest, s, rfl, hs, h⟩

theorem rest_of_word {c : UInt8} {left : List UInt8} {t : Token}
    (h : run? ⟨done, .word (c :: left) t⟩ bytes = some tokens) :
    ∃ rest, bytes = c :: left ++ rest ∧ (idle (t :: done)).run? rest = some tokens := by
  induction left generalizing c bytes with
  | nil =>
    obtain ⟨b, rest, s, rfl, hs, hrest⟩ := exists_of_run? h rfl
    simp only [step, bne_iff_ne, ne_eq, ite_not, Option.ite_none_right_eq_some, List.isEmpty_nil,
      if_true, Option.some.injEq] at hs
    obtain ⟨rfl, rfl⟩ := hs
    exact ⟨rest, rfl, hrest⟩
  | cons d left ih =>
    obtain ⟨b, rest, s, rfl, hs, hrest⟩ := exists_of_run? h rfl
    simp only [step, bne_iff_ne, ne_eq, ite_not, Option.ite_none_right_eq_some, List.isEmpty_cons,
      Bool.false_eq_true, if_false, Option.some.injEq] at hs
    obtain ⟨rfl, rfl⟩ := hs
    obtain ⟨after, rfl, hafter⟩ := ih hrest
    exact ⟨after, rfl, hafter⟩

theorem rest_of_number {n : NumberScan} (h : run? ⟨done, .number n⟩ bytes = some tokens) :
    ∃ xs rest m k, bytes = xs ++ rest ∧ xs.foldlM NumberScan.push? n = some m ∧
      m.finish? = some k ∧ (idle (.number k :: done)).run? rest = some tokens := by
  induction bytes generalizing n with
  | nil =>
    have hfinish : finish? ⟨done, .number n⟩ = some tokens := h
    obtain ⟨k, hk, htokens⟩ := Option.bind_eq_some_iff.1 hfinish
    exact ⟨[], [], n, k, rfl, rfl, hk, htokens⟩
  | cons b bytes ih =>
    rw [run?_cons] at h
    obtain ⟨s, hs, hbytes⟩ := Option.bind_eq_some_iff.1 h
    simp only [step] at hs
    cases hpush : n.push? b with
    | none =>
      -- the byte begins something else, and is read again as such
      simp only [hpush] at hs
      obtain ⟨k, hk, hs⟩ := Option.bind_eq_some_iff.1 hs
      refine ⟨[], b :: bytes, n, k, rfl, rfl, hk, ?_⟩
      rw [run?_cons]
      exact Option.bind_eq_some_iff.2 ⟨s, hs, hbytes⟩
    | some n' =>
      simp only [hpush, Option.some.injEq] at hs
      subst hs
      obtain ⟨xs, rest, m, k, rfl, hm, hk, hrest⟩ := ih hbytes
      exact ⟨b :: xs, rest, m, k, rfl, by rw [List.foldlM_cons, hpush]; exact hm, hk, hrest⟩

theorem rest_of_hex {pieces : Quoted} {digits unit : ℕ}
    (h : run? ⟨done, .hex pieces digits unit⟩ bytes = some tokens) :
    ∃ b rest d, bytes = b :: rest ∧ IsHex d b ∧ run? (if digits = 3
      then ⟨done, .string (.unit (16 * unit + d).toUInt16 :: pieces)⟩
      else ⟨done, .hex pieces (digits + 1) (16 * unit + d)⟩) rest = some tokens := by
  obtain ⟨b, rest, s, rfl, hs, hrest⟩ := exists_of_run? h rfl
  obtain ⟨d, hd, hs⟩ := Option.bind_eq_some_iff.1 hs
  refine ⟨b, rest, d, rfl, isHex_of_hexDigit? hd, ?_⟩
  split_ifs at hs ⊢ <;> exact Option.some.inj hs ▸ hrest

theorem rest_of_escape {pieces : Quoted} (h : run? ⟨done, .escape pieces⟩ bytes = some tokens) :
    ∃ p xs rest, Piece.Spelt p ('\\'.toUInt8 :: xs) ∧ bytes = xs ++ rest ∧
      run? ⟨done, .string (p :: pieces)⟩ rest = some tokens := by
  obtain ⟨b, rest, s, rfl, hs, hrest⟩ := exists_of_run? h rfl
  simp only [step] at hs
  split_ifs at hs with hunit
  · obtain rfl := Option.some.inj hs
    obtain ⟨b₁, rest, d₁, rfl, h₁, hrest⟩ := rest_of_hex hrest
    obtain ⟨b₂, rest, d₂, rfl, h₂, hrest⟩ := rest_of_hex hrest
    obtain ⟨b₃, rest, d₃, rfl, h₃, hrest⟩ := rest_of_hex hrest
    obtain ⟨b₄, rest, d₄, rfl, h₄, hrest⟩ := rest_of_hex hrest
    simp only [Nat.mul_zero, Nat.zero_add] at hrest
    exact ⟨_, [b, b₁, b₂, b₃, b₄], rest, beq_iff_eq.1 hunit ▸ .unit h₁ h₂ h₃ h₄, rfl, hrest⟩
  · obtain ⟨c, hc, rfl⟩ := Option.map_eq_some_iff.1 hs
    exact ⟨_, [b], rest, .escaped (mem_escapes hc), rfl, hrest⟩

theorem rest_of_piece {pieces : Quoted} (h : run? ⟨done, .string pieces⟩ bytes = some tokens) :
    (∃ rest, bytes = '"'.toUInt8 :: rest ∧
      (idle (.string pieces.reverse :: done)).run? rest = some tokens) ∨
    ∃ p b xs rest, Piece.Spelt p (b :: xs) ∧ bytes = b :: xs ++ rest ∧
      run? ⟨done, .string (p :: pieces)⟩ rest = some tokens := by
  obtain ⟨b, rest, s, rfl, hs, hrest⟩ := exists_of_run? h rfl
  simp only [step] at hs
  split_ifs at hs with hquote hslash hlow
  · obtain rfl := Option.some.inj hs
    exact Or.inl ⟨rest, by rw [beq_iff_eq.1 hquote], hrest⟩
  · obtain rfl := Option.some.inj hs
    obtain ⟨p, xs, after, hp, rfl, hafter⟩ := rest_of_escape hrest
    exact Or.inr ⟨p, b, xs, after, beq_iff_eq.1 hslash ▸ hp, rfl, hafter⟩
  · obtain rfl := Option.some.inj hs
    exact Or.inr ⟨_, b, [], rest, .plain (UInt8.not_lt.1 hlow) (by simpa using hquote)
      (by simpa using hslash), rfl, hrest⟩

theorem rest_of_string {pieces : Quoted} (h : run? ⟨done, .string pieces⟩ bytes = some tokens) :
    ∃ (ps : Quoted) (xs rest : List UInt8), ps.Spelt xs ∧ bytes = xs ++ '"'.toUInt8 :: rest ∧
      (idle (.string (pieces.reverse ++ ps) :: done)).run? rest = some tokens := by
  induction hlength : bytes.length using Nat.strong_induction_on generalizing bytes pieces with
  | h length ih =>
    obtain ⟨rest, rfl, hrest⟩ | ⟨p, b, xs, rest, hp, rfl, hrest⟩ := rest_of_piece h
    · exact ⟨[], [], rest, .nil, rfl, by simpa using hrest⟩
    · have hlt : rest.length < length := by
        rw [← hlength]
        simp
      obtain ⟨ps, ys, after, hps, rfl, hafter⟩ := ih rest.length hlt hrest rfl
      exact ⟨p :: ps, b :: xs ++ ys, after, .cons hp hps, by simp, by simpa using hafter⟩

end Scanner

/-- The number that the scanner ends with is the one that was written. -/
theorem spelt_number {done : List Token} {b : UInt8} {xs : List UInt8} {n m : NumberScan}
    {k : Number} {l : Literal} (hl : l.WellFormed) (htext : b :: xs = l.text.map Char.toUInt8)
    (hbegin : Scanner.begin? done b = some ⟨done, .number n⟩)
    (hm : xs.foldlM NumberScan.push? n = some m) (hk : m.finish? = some k) :
    (Token.number k).Spelt (b :: xs) := by
  obtain ⟨m', hm', hk'⟩ := foldlM_literal hl done
  have hstep : Scanner.step (Scanner.idle done) b = some ⟨done, .number n⟩ := hbegin
  rw [← htext, List.foldlM_cons, hstep, Option.bind_eq_bind, Option.bind_some, foldlM_number done hm]
    at hm'
  obtain rfl : m = m' := by simpa using hm'
  obtain rfl : k = l.number := Option.some.inj (hk.symm.trans hk')
  rw [htext]
  exact .number hl

theorem spelt_word {t : Token} {w : String} {xs : List UInt8} (h : t.word? = some w)
    (hw : utf8 w = xs) : t.Spelt xs := hw ▸ .word h

/-- What a byte between tokens begins. -/
inductive Begins (done : List Token) (b : UInt8) : Scanner → Prop
  | space (hb : isSpace b) : Begins done b (Scanner.idle done)
  | sign {t : Token} (ht : t.Spelt [b]) : Begins done b (Scanner.idle (t :: done))
  | word {t : Token} {c : UInt8} {left : List UInt8} (ht : t.Spelt (b :: c :: left)) :
    Begins done b ⟨done, .word (c :: left) t⟩
  | string (hb : '"'.toUInt8 = b) : Begins done b ⟨done, .string []⟩
  | minus (hb : '-'.toUInt8 = b) : Begins done b ⟨done, .number (.start .sign true 0)⟩
  | digit {d : ℕ} (hd : digitByte? b = some d) :
    Begins done b ⟨done, .number (.start (if d = 0 then .zero else .whole) false d)⟩

theorem begins_of_begin? {done : List Token} {b : UInt8} {s : Scanner}
    (h : Scanner.begin? done b = some s) : Begins done b s := by
  unfold Scanner.begin? at h
  obtain ⟨hb, hs⟩ | ⟨-, h⟩ := ite_eq_iff.1 h
  · exact Option.some.inj hs ▸ .space hb
  iterate 6
    obtain ⟨hb, hs⟩ | ⟨-, h⟩ := ite_eq_iff.1 h
    · exact Option.some.inj hs ▸ .sign (spelt_word rfl (beq_iff_eq.1 hb ▸ rfl))
  obtain ⟨hb, hs⟩ | ⟨-, h⟩ := ite_eq_iff.1 h
  · exact Option.some.inj hs ▸ .string (beq_iff_eq.1 hb).symm
  iterate 3
    obtain ⟨hb, hs⟩ | ⟨-, h⟩ := ite_eq_iff.1 h
    · exact Option.some.inj hs ▸ .word (spelt_word rfl (beq_iff_eq.1 hb ▸ rfl))
  obtain ⟨hb, hs⟩ | ⟨-, h⟩ := ite_eq_iff.1 h
  · exact Option.some.inj hs ▸ .minus (beq_iff_eq.1 hb).symm
  split at h
  · next d hd => exact Option.some.inj h ▸ .digit hd
  · cases h

/-- What is no white space begins a token, and the text goes on behind it. -/
theorem exists_spelt {done tokens : List Token} {b : UInt8} {bytes : List UInt8}
    (h : (Scanner.idle done).run? (b :: bytes) = some tokens) :
    (isSpace b ∧ (Scanner.idle done).run? bytes = some tokens) ∨
      ∃ (t : Token) (xs rest : List UInt8), t.Spelt (b :: xs) ∧ bytes = xs ++ rest ∧
        (Scanner.idle (t :: done)).run? rest = some tokens := by
  rw [Scanner.run?_cons] at h
  obtain ⟨s, hs, hrest⟩ := Option.bind_eq_some_iff.1 h
  have hbegin : Scanner.begin? done b = some s := hs
  cases begins_of_begin? hbegin with
  | space hb => exact Or.inl ⟨hb, hrest⟩
  | sign ht => exact Or.inr ⟨_, [], bytes, ht, rfl, hrest⟩
  | word ht =>
    obtain ⟨rest, rfl, hafter⟩ := Scanner.rest_of_word hrest
    exact Or.inr ⟨_, _, rest, ht, rfl, hafter⟩
  | string hb =>
    obtain ⟨ps, xs, rest, hps, rfl, hafter⟩ := Scanner.rest_of_string hrest
    exact Or.inr ⟨.string ps, xs ++ ['"'.toUInt8], rest, hb ▸ .string hps, by simp, hafter⟩
  | minus hb =>
    obtain ⟨xs, rest, m, k, rfl, hm, hk, hafter⟩ := Scanner.rest_of_number hrest
    obtain ⟨l, hl, htext⟩ := NumberScan.literal_of_sign ⟨m, k, hm, hk⟩
    exact Or.inr ⟨.number k, xs, rest, spelt_number hl (hb ▸ htext) hbegin hm hk, rfl, hafter⟩
  | digit hd =>
    obtain ⟨xs, rest, m, k, rfl, hm, hk, hafter⟩ := Scanner.rest_of_number hrest
    obtain ⟨c, hc, rfl⟩ := exists_digit hd
    have hstart := hbegin.symm.trans (begin_digit done hc)
    simp only [Option.some.injEq, Scanner.mk.injEq, Lexeme.number.injEq, true_and] at hstart
    rw [hstart] at hm
    obtain ⟨l, hl, hnegative, htext⟩ := NumberScan.literal_of_digit false hc ⟨m, k, hm, hk⟩
    have htext' : c.toUInt8 :: xs = l.text.map Char.toUInt8 := by
      simp [Literal.text, hnegative, htext]
    exact Or.inr ⟨.number k, xs, rest, spelt_number hl htext' (begin_digit done hc) hm hk, rfl,
      hafter⟩

theorem laid_of_run? {done tokens : List Token} {bytes : List UInt8}
    (h : (Scanner.idle done).run? bytes = some tokens) :
    ∃ ts, tokens = done.reverse ++ ts ∧ Laid ts bytes := by
  induction hlength : bytes.length using Nat.strong_induction_on generalizing bytes done with
  | h length ih =>
    rcases bytes with _ | ⟨b, bytes⟩
    · refine ⟨[], ?_, .nil (by simp [Space])⟩
      simpa [Scanner.run?, Scanner.finish?, Scanner.idle] using h.symm
    obtain ⟨hspace, hrest⟩ | ⟨t, xs, rest, ht, rfl, hrest⟩ := exists_spelt h
    · obtain ⟨ts, htokens, hlaid⟩ := ih bytes.length (by simp [← hlength]) hrest rfl
      have hws : Space [b] := fun c hc => List.mem_singleton.1 hc ▸ isSpace_iff.1 hspace
      exact ⟨ts, htokens, hlaid.space hws⟩
    · obtain ⟨ts, rfl, hlaid⟩ := ih rest.length (by simp [← hlength]) hrest rfl
      exact ⟨t :: ts, by simp, .cons (fun _ h => absurd h List.not_mem_nil) ht hlaid⟩

/-- The scanner finds tokens of which no two numbers stand next to each other where they are
written, and nowhere else. -/
theorem scan_eq_some_iff {ts : List Token} (hts : ts.IsChain Token.Apart) {text : List UInt8} :
    scan text = some ts ↔ Laid ts text := by
  constructor
  · intro h
    obtain ⟨us, hus, hlaid⟩ := laid_of_run? h
    rwa [hus]
  · intro h
    exact h.run? hts []

end Telemetry.Json
