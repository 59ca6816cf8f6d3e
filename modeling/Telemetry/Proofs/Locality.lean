import Telemetry.Proofs.Limit

/-! What a reader has looked at. A reader of bits that ends well has looked at nothing behind its
end, so data that agree up to there are read alike, whatever they go on with. -/

namespace Telemetry.Deflate

open Bytes (byteAt)

/-- The bytes of `other` that hold bits before `stop` are those of `data`. -/
structure Shares (data other : ByteArray) (stop : ℕ) : Prop where
  fits : stop ≤ 8 * other.size
  bytes : ∀ i, 8 * i < stop → byteAt other i = byteAt data i

/-- From `pos` on a reader looks at no byte without a bit before `stop`. -/
structure Confined {α : Type} (read : ByteArray → α) (data : ByteArray) (pos stop : ℕ) : Prop where
  ahead : pos ≤ stop
  fits : stop ≤ 8 * data.size
  same : ∀ other, Shares data other stop → read other = read data

section

variable {α β : Type} {data other : ByteArray} {pos mid stop : ℕ}

theorem Shares.mono (h : Shares data other stop) (hmid : mid ≤ stop) : Shares data other mid :=
  ⟨hmid.trans h.fits, fun i hi => h.bytes i (hi.trans_le hmid)⟩

theorem Shares.bit_eq (h : Shares data other stop) {i : ℕ} (hi : i < stop) :
    bit other i = bit data i := by
  rw [bit, bit, h.bytes (i / 8) (by omega)]

theorem Shares.bitsValue_eq (h : Shares data other stop) {n : ℕ} (hn : pos + n ≤ stop) :
    bitsValue other n pos = bitsValue data n pos := by
  induction n generalizing pos with
  | zero => rfl
  | succ n ih => rw [bitsValue, bitsValue, h.bit_eq (by omega), ih (by omega)]

theorem Shares.copyFrom_eq (h : Shares data other stop) {start n : ℕ}
    (hn : 8 * (start + n) ≤ stop) (out : ByteArray) :
    copyFrom other start n out = copyFrom data start n out := by
  induction n generalizing start out with
  | zero => rfl
  | succ n ih => rw [copyFrom, copyFrom, h.bytes start (by omega), ih (by omega)]

namespace Confined

theorem const (a : α) (hpos : pos ≤ 8 * data.size) : Confined (fun _ => a) data pos pos :=
  ⟨le_rfl, hpos, fun _ _ => rfl⟩

theorem widen {read : ByteArray → α} (h : Confined read data mid stop) (hpos : pos ≤ mid) :
    Confined read data pos stop :=
  ⟨hpos.trans h.ahead, h.fits, h.same⟩

theorem bind {x : ByteArray → Option α} {k : α → ByteArray → Option β} {a : α}
    (ha : x data = some a) (hx : Confined x data pos mid) (hk : Confined (k a) data mid stop) :
    Confined (fun data => x data >>= (k · data)) data pos stop where
  ahead := hx.ahead.trans hk.ahead
  fits := hk.fits
  same := by
    intro other hother
    simp only [hx.same other (hother.mono hk.ahead), ha, Option.bind_eq_bind, Option.bind_some]
    exact hk.same other hother

end Confined

end

section

variable {data : ByteArray} {pos : ℕ}

theorem bits?_confined {n v : ℕ} (h : bits? data n pos = some v) :
    Confined (bits? · n pos) data pos (pos + n) := by
  rw [bits?, Option.ite_none_right_eq_some] at h
  refine ⟨Nat.le_add_right _ _, h.1, fun other hother => ?_⟩
  rw [bits?, bits?, if_pos hother.fits, if_pos h.1, hother.bitsValue_eq le_rfl]

/-- A symbol has one bit at least. -/
theorem decodeFrom_confined {symbols : Array ℕ} {counts : List ℕ} {word first index symbol next : ℕ}
    (h : Code.decodeFrom data symbols counts word first index pos = some (symbol, next)) :
    Confined (Code.decodeFrom · symbols counts word first index pos) data (pos + 1) next := by
  induction counts generalizing word first index pos with
  | nil => cases h
  | cons count counts ih =>
    rw [Code.decodeFrom, Option.ite_none_right_eq_some] at h
    obtain ⟨hpos, h⟩ := h
    dsimp only at h
    split_ifs at h with hword
    · obtain ⟨s, hs, heq⟩ := Option.map_eq_some_iff.1 h
      obtain ⟨rfl, rfl⟩ := Prod.mk.inj heq
      refine ⟨le_rfl, hpos, fun other hother => ?_⟩
      have hother' := hother.fits
      rw [Code.decodeFrom, Code.decodeFrom, if_pos (by omega), if_pos hpos,
        hother.bit_eq (Nat.lt_succ_self pos)]
      simp only [if_pos hword]
    · have hrest := ih h
      refine ⟨by have := hrest.ahead; omega, hrest.fits, fun other hother => ?_⟩
      have hahead := hrest.ahead
      have hfits := hother.fits
      rw [Code.decodeFrom, Code.decodeFrom, if_pos (by omega), if_pos hpos,
        hother.bit_eq (by omega)]
      simp only [if_neg hword]
      exact hrest.same other hother

theorem decode_confined {c : Code} {symbol next : ℕ} (h : c.decode data pos = some (symbol, next)) :
    Confined (c.decode · pos) data (pos + 1) next :=
  decodeFrom_confined h

theorem extended?_confined {table : Array (ℕ × ℕ)} {symbol v next : ℕ}
    (h : extended? table data symbol pos = some (v, next)) :
    Confined (extended? table · symbol pos) data pos next := by
  unfold extended? at h ⊢
  obtain ⟨⟨least, extra⟩, hrow, h⟩ := Option.bind_eq_some_iff.1 h
  obtain ⟨bits, hbits, h⟩ := Option.bind_eq_some_iff.1 h
  obtain ⟨rfl, rfl⟩ := Prod.mk.inj (Option.some.inj h)
  have hconfined := bits?_confined hbits
  refine .bind hrow (.const _ (hconfined.ahead.trans hconfined.fits)) (.bind hbits hconfined ?_)
  exact .const _ hconfined.fits

theorem match?_confined {distances : Code} {symbol length distance next : ℕ}
    (h : match? data distances symbol pos = some (length, distance, next)) :
    Confined (match? · distances symbol pos) data pos next := by
  unfold match? at h ⊢
  obtain ⟨⟨length, mid⟩, hlength, h⟩ := Option.bind_eq_some_iff.1 h
  obtain ⟨⟨code, mid'⟩, hcode, h⟩ := Option.bind_eq_some_iff.1 h
  obtain ⟨⟨distance, next⟩, hdistance, h⟩ := Option.bind_eq_some_iff.1 h
  obtain ⟨rfl, heq⟩ := Prod.mk.inj (Option.some.inj h)
  obtain ⟨rfl, rfl⟩ := Prod.mk.inj heq
  have hconfined := extended?_confined hdistance
  refine .bind hlength (extended?_confined hlength) (.bind hcode
    ((decode_confined hcode).widen (Nat.le_succ _)) (.bind hdistance hconfined ?_))
  exact .const _ hconfined.fits

theorem triples?_confined {n : ℕ} {ns : List ℕ} (h : triples? data n pos = some ns)
    (hpos : pos ≤ 8 * data.size) : Confined (triples? · n pos) data pos (pos + 3 * n) := by
  induction n generalizing pos ns with
  | zero => exact .const _ hpos
  | succ n ih =>
    simp only [triples?] at h ⊢
    obtain ⟨v, hv, h⟩ := Option.bind_eq_some_iff.1 h
    obtain ⟨vs, hvs, h⟩ := Option.bind_eq_some_iff.1 h
    have hfirst := bits?_confined hv
    have hrest := ih hvs hfirst.fits
    have hend : pos + 3 * (n + 1) = pos + 3 + 3 * n := by omega
    rw [hend]
    exact .bind hv hfirst (.bind hvs hrest (.const _ hrest.fits))

theorem codeLengths_confined {code : Code} {wanted fuel next : ℕ} {done lengths : List ℕ}
    (h : codeLengths data code wanted fuel done pos = some (lengths, next))
    (hpos : pos ≤ 8 * data.size) :
    Confined (codeLengths · code wanted fuel done pos) data pos next := by
  induction fuel generalizing done pos with
  | zero => cases h
  | succ fuel ih =>
    rw [codeLengths] at h
    simp only [codeLengths]
    split_ifs at h ⊢ with hdone hover
    · obtain ⟨rfl, rfl⟩ := Prod.mk.inj (Option.some.inj h)
      exact .const _ hpos
    · obtain ⟨⟨symbol, mid⟩, hsymbol, h⟩ := Option.bind_eq_some_iff.1 h
      have hmid := (decode_confined hsymbol).widen (Nat.le_succ _)
      refine .bind hsymbol hmid ?_
      dsimp only at h ⊢
      split_ifs at h ⊢ with hplain hlast hzeros
      · exact ih h hmid.fits
      · obtain ⟨last, hhead, h⟩ := Option.bind_eq_some_iff.1 h
        obtain ⟨n, hn, h⟩ := Option.bind_eq_some_iff.1 h
        have hmore := bits?_confined hn
        exact .bind hhead (.const _ hmid.fits) (.bind hn hmore (ih h hmore.fits))
      · obtain ⟨n, hn, h⟩ := Option.bind_eq_some_iff.1 h
        have hmore := bits?_confined hn
        exact .bind hn hmore (ih h hmore.fits)
      · obtain ⟨n, hn, h⟩ := Option.bind_eq_some_iff.1 h
        have hmore := bits?_confined hn
        exact .bind hn hmore (ih h hmore.fits)

theorem codes?_confined {literals distances : Code} {next : ℕ}
    (h : codes? data pos = some (literals, distances, next)) :
    Confined (codes? · pos) data pos next := by
  unfold codes? at h ⊢
  obtain ⟨a, ha, h⟩ := Option.bind_eq_some_iff.1 h
  obtain ⟨b, hb, h⟩ := Option.bind_eq_some_iff.1 h
  obtain ⟨c, hc, h⟩ := Option.bind_eq_some_iff.1 h
  refine .bind ha (bits?_confined ha) (.bind hb (bits?_confined hb)
    (.bind hc (bits?_confined hc) ?_))
  dsimp only at h ⊢
  split_ifs at h ⊢ with hmany
  · cases h
  · obtain ⟨triples, htriples, h⟩ := Option.bind_eq_some_iff.1 h
    have hgiven := triples?_confined htriples (bits?_confined hc).fits
    refine .bind htriples hgiven ?_
    split_ifs at h ⊢ with hcomplete
    · cases h
    · obtain ⟨⟨lengths, mid⟩, hlengths, h⟩ := Option.bind_eq_some_iff.1 h
      have hconfined := codeLengths_confined hlengths hgiven.fits
      refine .bind hlengths hconfined ?_
      split_ifs at h ⊢
      obtain ⟨-, heq⟩ := Prod.mk.inj (Option.some.inj h)
      obtain ⟨-, rfl⟩ := Prod.mk.inj heq
      exact .const _ hconfined.fits

end

/-! ### Blocks -/

/-- A reader that counts its steps, with a bit at least in each, so that the bits it takes are steps
enough. -/
structure Counted (read : ByteArray → ℕ → Except Fault Progress) (data : ByteArray) (pos : ℕ)
    (p : Progress) : Prop where
  ahead : pos ≤ p.pos
  fits : p.pos ≤ 8 * data.size
  same : ∀ other, Shares data other p.pos → ∀ fuel, p.pos ≤ pos + fuel → read other fuel = .ok p

namespace Counted

variable {read rest : ByteArray → ℕ → Except Fault Progress} {data : ByteArray} {pos mid : ℕ}
  {p : Progress}

theorem confined (h : Counted read data pos p) :
    Confined (fun data => read data (8 * data.size)) data pos p.pos where
  ahead := h.ahead
  fits := h.fits
  same := by
    have hself : Shares data data p.pos := ⟨h.fits, fun _ _ => rfl⟩
    have henough {other : ByteArray} (hother : Shares data other p.pos) :
        p.pos ≤ pos + 8 * other.size := hother.fits.trans (Nat.le_add_left _ _)
    intro other hother
    rw [h.same other hother _ (henough hother), h.same data hself _ (henough hself)]

theorem last (hpos : pos < p.pos) (hfits : p.pos ≤ 8 * data.size)
    (hlast : ∀ other fuel, Shares data other p.pos → read other (fuel + 1) = .ok p) :
    Counted read data pos p where
  ahead := hpos.le
  fits := hfits
  same := by
    intro other hother fuel hfuel
    obtain ⟨fuel, rfl⟩ : ∃ n, fuel = n + 1 := ⟨fuel - 1, by omega⟩
    exact hlast other fuel hother

theorem step (hmid : pos < mid) (h : Counted rest data mid p)
    (hstep : ∀ other fuel, Shares data other p.pos → read other (fuel + 1) = rest other fuel) :
    Counted read data pos p where
  ahead := hmid.le.trans h.ahead
  fits := h.fits
  same := by
    intro other hother fuel hfuel
    have hahead := h.ahead
    obtain ⟨fuel, rfl⟩ : ∃ n, fuel = n + 1 := ⟨fuel - 1, by omega⟩
    rw [hstep other fuel hother]
    exact h.same other hother fuel (by omega)

end Counted

section

variable {data out : ByteArray} {limit fuel pos : ℕ} {p : Progress}

theorem symbols_counted {literals distances : Code}
    (h : symbols data limit literals distances fuel pos out = .ok p) :
    Counted (symbols · limit literals distances · pos out) data pos p := by
  induction fuel generalizing pos out with
  | zero => cases h
  | succ fuel ih =>
    rw [symbols] at h
    cases hsymbol : literals.decode data pos with
    | none => simp [hsymbol] at h
    | some found =>
      obtain ⟨symbol, mid⟩ := found
      have hmid := decode_confined hsymbol
      simp only [hsymbol] at h
      split_ifs at h with hliteral hroom hend
      · -- a literal
        have hrest := ih h
        refine .step hmid.ahead hrest fun other fuel hother => ?_
        rw [symbols, hmid.same other (hother.mono hrest.ahead), hsymbol]
        simp only [if_pos hliteral, if_pos hroom]
      · -- the end of the block
        obtain rfl := Except.ok.inj h
        refine .last hmid.ahead hmid.fits fun other fuel hother => ?_
        rw [symbols, hmid.same other hother, hsymbol]
        simp only [if_neg hliteral, if_pos hend]
      · cases hmatch : match? data distances symbol mid with
        | none => simp [hmatch] at h
        | some found =>
          obtain ⟨length, distance, next⟩ := found
          have hnext := match?_confined hmatch
          simp only [hmatch] at h
          split_ifs at h with hfar hroom
          have hrest := ih h
          refine .step (Nat.lt_of_lt_of_le hmid.ahead hnext.ahead) hrest fun other fuel hother => ?_
          rw [symbols, hmid.same other (hother.mono (hnext.ahead.trans hrest.ahead)), hsymbol]
          simp only [if_neg hliteral, if_neg hend]
          rw [hnext.same other (hother.mono hrest.ahead), hmatch]
          simp only [if_neg hfar, if_pos hroom]

theorem storedBlock_confined (h : storedBlock data limit pos out = .ok p) :
    Confined (storedBlock · limit pos out) data pos p.pos := by
  unfold storedBlock at h
  cases hlength : bits? data 16 (8 * ((pos + 7) / 8)) with
  | none => simp [hlength] at h
  | some length =>
    cases hcheck : bits? data 16 (8 * ((pos + 7) / 8) + 16) with
    | none => simp [hlength, hcheck] at h
    | some check =>
      have hhead := bits?_confined hlength
      have htail := bits?_confined hcheck
      have hfits := htail.fits
      simp only [hlength, hcheck] at h
      split_ifs at h with hsum hroom hleft
      obtain rfl := Except.ok.inj h
      refine ⟨by simp only; omega, by simp only; omega, fun other hother => ?_⟩
      have hroom' := hother.fits
      simp only at hroom'
      have hmin {left : ℕ} (hleft : ¬left < length) : min length left = length := by omega
      have hcopy := hother.copyFrom_eq le_rfl out
      simp only [storedBlock, hhead.same other (hother.mono (by simp only; omega)),
        htail.same other (hother.mono (by simp only; omega)), hlength, hcheck, if_neg hsum]
      rw [hmin hleft] at hroom ⊢
      have hleft' : ¬other.size - ((pos + 7) / 8 + 4) < length := by omega
      rw [hmin hleft', if_neg hroom, if_neg hleft', if_neg hroom, if_neg hleft, hcopy]

theorem block_confined {type : ℕ} (h : block data limit type pos out = .ok p) :
    Confined (block · limit type pos out) data pos p.pos := by
  unfold block at h ⊢
  split at h
  · exact storedBlock_confined h
  · exact (symbols_counted h).confined
  · cases hcodes : codes? data pos with
    | none => simp [hcodes] at h
    | some found =>
      obtain ⟨literals, distances, mid⟩ := found
      simp only [hcodes] at h
      have hmid := codes?_confined hcodes
      have hrest := (symbols_counted h).confined
      refine ⟨hmid.ahead.trans hrest.ahead, hrest.fits, fun other hother => ?_⟩
      simp only [hmid.same other (hother.mono hrest.ahead), hcodes]
      exact hrest.same other hother
  · cases h

theorem blocks_counted (h : blocks data limit fuel pos out = .ok p) :
    Counted (blocks · limit · pos out) data pos p := by
  induction fuel generalizing pos out with
  | zero => cases h
  | succ fuel ih =>
    rw [blocks] at h
    cases hlast : bits? data 1 pos with
    | none => simp [hlast] at h
    | some last =>
      cases htype : bits? data 2 (pos + 1) with
      | none => simp [hlast, htype] at h
      | some type =>
        cases hblock : block data limit type (pos + 3) out with
        | error fault => simp [hlast, htype, hblock] at h
        | ok q =>
          have hfirst := bits?_confined hlast
          have hsecond := bits?_confined htype
          have hbody := block_confined hblock
          have hahead := hbody.ahead
          have hstep {other : ByteArray} (hother : Shares data other q.pos) (fuel : ℕ) :
              blocks other limit (fuel + 1) pos out =
                if last = 1 then .ok q else blocks other limit fuel q.pos q.out := by
            rw [blocks, hfirst.same other (hother.mono (by omega)),
              hsecond.same other (hother.mono (by omega)), hlast, htype]
            simp only [hbody.same other hother, hblock]
          simp only [hlast, htype, hblock] at h
          split_ifs at h with hend
          · obtain rfl := Except.ok.inj h
            refine .last (by omega) hbody.fits fun other fuel hother => ?_
            rw [hstep hother, if_pos hend]
          · have hrest := ih h
            refine .step (by omega) hrest fun other fuel hother => ?_
            rw [hstep (hother.mono hrest.ahead), if_neg hend]

theorem inflate_confined (h : inflate data limit pos = .ok p) :
    Confined (inflate · limit pos) data pos p.pos :=
  (blocks_counted h).confined

end

end Telemetry.Deflate
