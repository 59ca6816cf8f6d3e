import Telemetry.Proofs.Scanning
import Telemetry.Proofs.Cuts
import Telemetry.Json.Parser

/-! The texts of a JSON value. A value has its tokens, containers with commas between what they hold,
and a text of it is these tokens with white space anywhere between them. Each token that the parser
takes is a token of the value it ends with, however deep it is in containers, so the reader takes
exactly the texts of a value for that value. -/

namespace Telemetry.Json

theorem sizeOf_item_lt {items : List Json} {v : Json} (h : v ∈ items) :
    sizeOf v < sizeOf (array items) := by
  have hlt := List.sizeOf_lt_of_mem h
  rw [array.sizeOf_spec]
  omega

theorem sizeOf_member_lt {members : List (Quoted × Json)} {m : Quoted × Json} (h : m ∈ members) :
    sizeOf m.2 < sizeOf (object members) := by
  have hlt := List.sizeOf_lt_of_mem h
  obtain ⟨name, v⟩ := m
  change sizeOf v < _
  rw [Prod.mk.sizeOf_spec] at hlt
  rw [object.sizeOf_spec]
  omega

def tokens : Json → List Token
  | .null => [.null]
  | .bool b => [.bool b]
  | .number n => [.number n]
  | .string s => [.string s]
  | .array items => .openBracket :: [.comma].intercalate (items.map tokens) ++ [.closeBracket]
  | .object members =>
    .openBrace :: [.comma].intercalate (members.map fun m => .string m.1 :: .colon :: tokens m.2) ++
      [.closeBrace]
decreasing_by
  · exact sizeOf_item_lt ‹_›
  · exact sizeOf_member_lt ‹_›

/-- A text that holds one value and nothing else. -/
def Written (v : Json) (text : List UInt8) : Prop := Laid v.tokens text

def memberTokens (m : Quoted × Json) : List Token := .string m.1 :: .colon :: m.2.tokens

theorem tokens_array (items : List Json) : (array items).tokens =
    .openBracket :: [.comma].intercalate (items.map tokens) ++ [.closeBracket] := by
  rw [tokens]

theorem tokens_object (members : List (Quoted × Json)) : (object members).tokens =
    .openBrace :: [.comma].intercalate (members.map memberTokens) ++ [.closeBrace] := by
  rw [tokens]
  rfl

/-! ### Numbers never meet -/

theorem isChain_append_cons {t : Token} (ht : t.isNumber = false) {ts us : List Token}
    (hts : ts.IsChain Token.Apart) (hus : us.IsChain Token.Apart) :
    (ts ++ t :: us).IsChain Token.Apart := by
  have hbehind : (t :: us).IsChain Token.Apart := List.isChain_cons.2 ⟨fun _ _ => Or.inl ht, hus⟩
  refine List.isChain_append.2 ⟨hts, hbehind, fun u _ w hw => ?_⟩
  obtain rfl := Option.some.inj hw
  exact Or.inr ht

theorem isChain_intercalate {parts : List (List Token)}
    (h : ∀ ts ∈ parts, ts.IsChain Token.Apart) :
    ([.comma].intercalate parts).IsChain Token.Apart := by
  rcases parts with _ | ⟨first, rest⟩
  · exact List.isChain_nil
  rw [Text.intercalate_cons]
  induction rest generalizing first with
  | nil => simpa using h first (by simp)
  | cons ts rest ih =>
    rw [List.flatMap_cons, List.append_assoc]
    exact isChain_append_cons rfl (h first (by simp)) (ih ts fun us hus => h us (by simp [hus]))

theorem isChain_enclosed {t u : Token} (ht : t.isNumber = false) (hu : u.isNumber = false)
    {ts : List Token} (hts : ts.IsChain Token.Apart) :
    (t :: ts ++ [u]).IsChain Token.Apart :=
  isChain_append_cons hu (isChain_append_cons ht List.isChain_nil hts) List.isChain_nil

theorem isChain_tokens (v : Json) : v.tokens.IsChain Token.Apart := by
  induction v using tokens.induct with
  | case1 | case2 | case3 | case4 =>
    rw [tokens]
    exact List.isChain_singleton _
  | case5 items ih =>
    rw [tokens_array]
    refine isChain_enclosed rfl rfl (isChain_intercalate fun ts hts => ?_)
    obtain ⟨v, hv, rfl⟩ := List.mem_map.1 hts
    exact ih v hv
  | case6 members ih =>
    rw [tokens_object]
    refine isChain_enclosed rfl rfl (isChain_intercalate fun ts hts => ?_)
    obtain ⟨m, hm, rfl⟩ := List.mem_map.1 hts
    exact isChain_append_cons rfl (List.isChain_singleton _) (ih m hm)

/-! ### The parser takes the tokens of a value for that value -/

/-- The parser takes these tokens for this value, in whatever containers. -/
def Parses (ts : List Token) (v : Json) : Prop :=
  ∀ stack, ts.foldlM Parse.step (.value stack) = some (.after v stack)

theorem foldlM_items {items : List Json} (h : ∀ w ∈ items, Parses w.tokens w) (v : Json)
    (before : List Json) (stack : List Frame) :
    (items.flatMap ([Token.comma] ++ tokens ·) ++ [Token.closeBracket]).foldlM Parse.step
      (.after v (.array before :: stack)) =
        some (.after (.array ((v :: before).reverse ++ items)) stack) := by
  induction items generalizing v before with
  | nil =>
    rw [List.append_nil]
    rfl
  | cons w items ih =>
    have hcomma : Parse.step (.after v (.array before :: stack)) .comma =
        some (.value (.array (v :: before) :: stack)) := rfl
    rw [List.flatMap_cons, List.append_assoc, List.append_assoc, List.singleton_append,
      List.foldlM_cons, hcomma, Option.bind_eq_bind, Option.bind_some, List.foldlM_append,
      h w (by simp), Option.bind_eq_bind, Option.bind_some, ih fun u hu => h u (by simp [hu])]
    simp

theorem foldlM_members {members : List (Quoted × Json)} (h : ∀ m ∈ members, Parses m.2.tokens m.2)
    (name : Quoted) (v : Json) (before : List (Quoted × Json)) (stack : List Frame) :
    (members.flatMap ([Token.comma] ++ memberTokens ·) ++ [Token.closeBrace]).foldlM Parse.step
      (.after v (.object before name :: stack)) =
        some (.after (.object (((name, v) :: before).reverse ++ members)) stack) := by
  induction members generalizing name v before with
  | nil =>
    rw [List.append_nil]
    rfl
  | cons m members ih =>
    have hname : [Token.comma, .string m.1, .colon].foldlM Parse.step
        (.after v (.object before name :: stack)) =
          some (.value (.object ((name, v) :: before) m.1 :: stack)) := rfl
    have htokens : [Token.comma] ++ memberTokens m =
        [Token.comma, .string m.1, .colon] ++ m.2.tokens := rfl
    rw [List.flatMap_cons, htokens, List.append_assoc, List.append_assoc, List.foldlM_append, hname,
      Option.bind_eq_bind, Option.bind_some, List.foldlM_append, h m (by simp), Option.bind_eq_bind,
      Option.bind_some, ih fun u hu => h u (by simp [hu])]
    simp

theorem tokens_ne_nil (v : Json) : v.tokens ≠ [] := by
  cases v <;> simp [tokens]

/-- A list that has just been opened takes its first value as any other. -/
theorem Parse.step_firstItem {stack : List Frame} {t : Token} {p : Parse}
    (h : (value stack).step t = some p) :
    (firstItem stack).step t = (value (.array [] :: stack)).step t := by
  rcases t <;> first | rfl | cases h

theorem foldlM_firstItem {v : Json} (h : Parses v.tokens v) (stack : List Frame) :
    v.tokens.foldlM Parse.step (.firstItem stack) = some (.after v (.array [] :: stack)) := by
  obtain ⟨t, ts, htokens⟩ := List.exists_cons_of_ne_nil v.tokens_ne_nil
  have hvalue := h stack
  rw [← h (.array [] :: stack)]
  rw [htokens, List.foldlM_cons] at hvalue ⊢
  obtain ⟨p, hp, -⟩ := Option.bind_eq_some_iff.1 hvalue
  rw [Parse.step_firstItem hp, List.foldlM_cons]

theorem parses_tokens (v : Json) : Parses v.tokens v := by
  induction v using tokens.induct with
  | case1 | case2 | case3 | case4 =>
    intro stack
    rw [tokens]
    rfl
  | case5 items ih =>
    intro stack
    have hopen : Parse.step (.value stack) .openBracket = some (.firstItem stack) := rfl
    rw [tokens_array, List.cons_append, List.foldlM_cons, hopen, Option.bind_eq_bind,
      Option.bind_some]
    rcases items with _ | ⟨v, items⟩
    · rfl
    · rw [List.map_cons, Text.intercalate_cons, List.flatMap_map, List.append_assoc,
        List.foldlM_append, foldlM_firstItem (ih v (by simp)), Option.bind_eq_bind, Option.bind_some,
        foldlM_items fun w hw => ih w (by simp [hw])]
      rfl
  | case6 members ih =>
    intro stack
    have hopen : Parse.step (.value stack) .openBrace = some (.firstName stack) := rfl
    rw [tokens_object, List.cons_append, List.foldlM_cons, hopen, Option.bind_eq_bind,
      Option.bind_some]
    rcases members with _ | ⟨m, members⟩
    · rfl
    · have hname : [Token.string m.1, .colon].foldlM Parse.step (.firstName stack) =
          some (.value (.object [] m.1 :: stack)) := rfl
      have htokens : memberTokens m = [Token.string m.1, .colon] ++ m.2.tokens := rfl
      rw [List.map_cons, Text.intercalate_cons, List.flatMap_map, htokens, List.append_assoc,
        List.append_assoc, List.foldlM_append, hname, Option.bind_eq_bind, Option.bind_some,
        List.foldlM_append, ih m (by simp), Option.bind_eq_bind, Option.bind_some,
        foldlM_members fun w hw => ih w (by simp [hw])]
      rfl

/-! ### And nothing else -/

namespace Parse

/-- The tokens from the bracket of a container up to where its next value begins. -/
def openTokens : Frame → List Token
  | .array items => .openBracket :: items.reverse.flatMap (·.tokens ++ [.comma])
  | .object members name =>
    .openBrace :: members.reverse.flatMap (memberTokens · ++ [.comma]) ++ [.string name, .colon]

def stackTokens (stack : List Frame) : List Token := stack.reverse.flatMap openTokens

/-- The tokens that a state has taken. -/
def taken : Parse → List Token
  | value stack => stackTokens stack
  | firstItem stack => stackTokens stack ++ [.openBracket]
  | firstName stack => stackTokens stack ++ [.openBrace]
  | nextName members stack =>
    stackTokens stack ++ .openBrace :: members.reverse.flatMap (memberTokens · ++ [.comma])
  | colon members name stack =>
    stackTokens stack ++ .openBrace :: members.reverse.flatMap (memberTokens · ++ [.comma]) ++
      [.string name]
  | after v stack => stackTokens stack ++ v.tokens

theorem stackTokens_cons (frame : Frame) (stack : List Frame) :
    stackTokens (frame :: stack) = stackTokens stack ++ openTokens frame := by
  simp [stackTokens]

theorem taken_beginValue? {stack : List Frame} {t : Token} {p : Parse}
    (h : beginValue? stack t = some p) : p.taken = stackTokens stack ++ [t] := by
  unfold beginValue? at h
  split at h <;> cases h <;> simp [taken, tokens]

theorem tokens_concat (items : List Json) (v : Json) : (array (v :: items).reverse).tokens =
    openTokens (.array items) ++ v.tokens ++ [.closeBracket] := by
  rw [tokens_array, List.reverse_cons, List.map_append, List.map_singleton, Text.intercalate_concat,
    List.flatMap_map]
  rfl

theorem tokens_concat_member (members : List (Quoted × Json)) (name : Quoted) (v : Json) :
    (object ((name, v) :: members).reverse).tokens =
      openTokens (.object members name) ++ v.tokens ++ [.closeBrace] := by
  rw [tokens_object, List.reverse_cons, List.map_append, List.map_singleton,
    Text.intercalate_concat, List.flatMap_map]
  simp [openTokens, memberTokens]

theorem taken_step {p p' : Parse} {t : Token} (h : p.step t = some p') :
    p'.taken = p.taken ++ [t] := by
  unfold step at h
  split at h
  · exact taken_beginValue? h
  · obtain rfl := Option.some.inj h
    simp [taken, tokens_array]
  · rw [taken_beginValue? h, stackTokens_cons]
    rfl
  all_goals first | (obtain rfl := Option.some.inj h) | cases h
  · simp [taken, tokens_object]
  · simp [taken]
  · simp [taken]
  · simp [taken, stackTokens_cons, openTokens]
  · simp [taken, stackTokens_cons, openTokens]
  · rw [taken, tokens_concat, taken, stackTokens_cons]
    simp only [List.append_assoc]
  · simp [taken, stackTokens_cons, openTokens, memberTokens]
  · rw [taken, tokens_concat_member, taken, stackTokens_cons]
    simp only [List.append_assoc]

theorem taken_foldlM {ts : List Token} {p p' : Parse} (h : ts.foldlM step p = some p') :
    p'.taken = p.taken ++ ts := by
  induction ts generalizing p with
  | nil =>
    obtain rfl := Option.some.inj h
    rw [List.append_nil]
  | cons t ts ih =>
    rw [List.foldlM_cons] at h
    obtain ⟨q, hq, h⟩ := Option.bind_eq_some_iff.1 h
    rw [ih h, taken_step hq, List.append_assoc, List.singleton_append]

end Parse

/-- The parser takes the tokens of a value for it, and no others. -/
theorem ofTokens?_eq_some_iff {ts : List Token} {v : Json} : ofTokens? ts = some v ↔ ts = v.tokens := by
  constructor
  · intro h
    obtain ⟨p, hp, hfinish⟩ := Option.bind_eq_some_iff.1 h
    have htaken := Parse.taken_foldlM hp
    unfold Parse.finish? at hfinish
    split at hfinish
    · obtain rfl := Option.some.inj hfinish
      exact htaken.symm
    · cases hfinish
  · rintro rfl
    rw [ofTokens?, v.parses_tokens]
    rfl

theorem Reads.parse?_eq {text : List UInt8} {v : Json} (h : Reads text v.tokens) :
    parse? text = some v := by
  rw [parse?, h.scan_eq]
  exact ofTokens?_eq_some_iff.2 rfl

theorem parse?_eq_some_iff {text : List UInt8} {v : Json} : parse? text = some v ↔ v.Written text := by
  rw [parse?, Option.bind_eq_bind, Option.bind_eq_some_iff]
  constructor
  · rintro ⟨ts, hscan, hts⟩
    obtain rfl := ofTokens?_eq_some_iff.1 hts
    exact (scan_eq_some_iff v.isChain_tokens).1 hscan
  · intro h
    exact ⟨v.tokens, (scan_eq_some_iff v.isChain_tokens).2 h, ofTokens?_eq_some_iff.2 rfl⟩

theorem Written.bracketed {v : Json} {text : List UInt8} (h : v.Written text) :
    (array [v]).Written ('['.toUInt8 :: text ++ [']'.toUInt8]) := by
  have hsign {t : Token} {b : UInt8} (ht : t.Spelt [b]) : Laid [t] [b] :=
    .cons (fun _ h => absurd h List.not_mem_nil) ht (.nil fun _ h => absurd h List.not_mem_nil)
  have hopen : Laid [.openBracket] ['['.toUInt8] := hsign (spelt_word rfl rfl)
  have hclose : Laid [.closeBracket] [']'.toUInt8] := hsign (spelt_word rfl rfl)
  rw [Written, tokens_array, List.map_singleton, List.intercalate_singleton]
  exact (hopen.append h).append hclose

theorem parse?_bracketed {bytes : List UInt8} {v : Json} (h : parse? bytes = some v) :
    parse? ('['.toUInt8 :: bytes ++ [']'.toUInt8]) = some (.array [v]) :=
  parse?_eq_some_iff.2 (parse?_eq_some_iff.1 h).bracketed

end Telemetry.Json
