import Mathlib.Data.List.Induction
import Telemetry.Host.Usage
import Telemetry.Proofs.Outcome
import Telemetry.Proofs.Quantity

/-! Files with a key and a quantity on each line. Such a file is read just if no line of one of its
keys is at fault, and then each key has the quantity on its last line. So neither lines without a key
nor the order of lines of different keys mean anything (`Rearranged`), while one line at fault is the
end of the file, whatever comes behind it. -/

namespace Telemetry.Host

open Text (lines)

/-- A line of a key, with what it says behind its first colon. -/
structure Entry (key : String) (raw line : List Char) : Prop where
  text : line = key.toList ++ ':' :: raw
  first : ':' ∉ key.toList

/-- A line that has none of the keys. -/
def Stray (keys : List String) (line : List Char) : Prop :=
  ∀ key ∈ keys, ∀ raw, ¬Entry key raw line

/-- A line that has one of the keys and no quantity, and what is said about it. -/
inductive Faulty (file : String) (keys : List String) (line : List Char) : Error → Prop
  | intro {key : String} {raw : List Char} (hkey : key ∈ keys) (h : Entry key raw line)
    (hraw : ∀ n, ¬Amount n raw) :
    Faulty file keys line (.badValue file key (String.ofList (Text.trim raw)))

/-- Every line of one of the keys has a quantity. -/
def Sound (keys : List String) (lines : List (List Char)) : Prop :=
  ∀ line ∈ lines, ∀ key ∈ keys, ∀ raw, Entry key raw line → ∃ n, Amount n raw

inductive Last (key : String) : List (List Char) → Option ℕ → Prop
  | absent {lines : List (List Char)} (h : ∀ line ∈ lines, ∀ raw, ¬Entry key raw line) :
    Last key lines none
  | present {before after : List (List Char)} {line raw : List Char} {n : ℕ}
    (h : Entry key raw line) (hraw : Amount n raw)
    (hafter : ∀ later ∈ after, ∀ raw, ¬Entry key raw later) :
    Last key (before ++ line :: after) (some n)

/-- What sound lines say of each of the keys. -/
structure Tells (keys : List String) (lines : List (List Char)) (found : String → Option ℕ) :
    Prop where
  sound : Sound keys lines
  last : ∀ key ∈ keys, Last key lines (found key)

/-- Two lines that do not have the same one of the keys. -/
def Apart (keys : List String) (line other : List Char) : Prop :=
  ∀ key ∈ keys, ∀ raw raw', Entry key raw line → ¬Entry key raw' other

/-- The same file to a reader of the keys: lines without a key come and go, and lines that all have
different keys change places. -/
inductive Rearranged (keys : List String) : List (List Char) → List (List Char) → Prop
  | refl (lines : List (List Char)) : Rearranged keys lines lines
  | inserted {line : List Char} (h : Stray keys line) (before after : List (List Char)) :
    Rearranged keys (before ++ after) (before ++ line :: after)
  | permuted {these those : List (List Char)} (h : these.Perm those)
    (apart : these.Pairwise (Apart keys)) (before after : List (List Char)) :
    Rearranged keys (before ++ (these ++ after)) (before ++ (those ++ after))
  | symm {a b : List (List Char)} (h : Rearranged keys a b) : Rearranged keys b a
  | trans {a b c : List (List Char)} (h : Rearranged keys a b) (h' : Rearranged keys b c) :
    Rearranged keys a c

/-! ### Lines -/

section

variable {key : String} {raw line : List Char}

theorem entry_iff : Entry key raw line ↔ Text.splitOnce? ':' line = some (key.toList, raw) := by
  rw [Text.splitOnce?_eq_some_iff]
  exact ⟨fun h => ⟨h.text, h.first⟩, fun h => ⟨h.1, h.2⟩⟩

theorem Entry.unique {key' : String} {raw' : List Char} (h : Entry key raw line)
    (h' : Entry key' raw' line) : key = key' ∧ raw = raw' := by
  have hsame := Option.some.inj ((entry_iff.1 h).symm.trans (entry_iff.1 h'))
  obtain ⟨hkey, hraw⟩ := Prod.mk.inj hsame
  exact ⟨String.toList_inj.1 hkey, hraw⟩

theorem Entry.stray {keys : List String} (h : Entry key raw line) (hkey : key ∉ keys) :
    Stray keys line := by
  intro other hother raw' h'
  rw [(h.unique h').1] at hkey
  exact hkey hother

theorem Entry.apart {key' : String} {raw' other : List Char} (h : Entry key raw line)
    (h' : Entry key' raw' other) (hne : key ≠ key') (keys : List String) :
    Apart keys line other := by
  intro name _ _ _ hline hother
  exact hne ((h.unique hline).1.trans (hother.unique h').1)

theorem not_amount_iff : (∀ n, ¬Amount n raw) ↔ quantity? raw = none := by
  simp only [← quantity?_eq_some_iff, Option.eq_none_iff_forall_ne_some, ne_eq]

end

section

variable {file : String} {keys : List String} {found found' : SortedMap ℕ} {line raw : List Char}

theorem readLine_entry {key : String} (hkey : key ∈ keys) (h : Entry key raw line) :
    readLine file keys found line =
      match quantity? raw with
      | some n => .ok (found.insert key n)
      | none => .error (.badValue file key (String.ofList (Text.trim raw))) := by
  have cut := entry_iff.1 h
  cases quantity : quantity? raw with
  | some n => simp only [readLine, cut, String.ofList_toList, if_pos hkey, quantity]
  | none => simp only [readLine, cut, String.ofList_toList, if_pos hkey, quantity]

theorem readLine_stray (h : Stray keys line) : readLine file keys found line = .ok found := by
  unfold readLine
  split
  · rfl
  · next name rest hcut =>
    refine if_neg fun hkey => h _ hkey rest ?_
    rw [entry_iff, String.toList_ofList]
    exact hcut

theorem line_cases (keys : List String) (line : List Char) :
    (∃ key ∈ keys, ∃ raw, Entry key raw line) ∨ Stray keys line := by
  by_cases h : ∃ key ∈ keys, ∃ raw, Entry key raw line
  · exact Or.inl h
  · refine Or.inr fun key hkey raw hentry => h ⟨key, hkey, raw, hentry⟩

theorem readLine_eq_ok_iff : readLine file keys found line = .ok found' ↔
    (∃ key ∈ keys, ∃ raw n, Entry key raw line ∧ Amount n raw ∧ found' = found.insert key n) ∨
      Stray keys line ∧ found' = found := by
  rcases line_cases keys line with ⟨key, hkey, raw, h⟩ | h
  · have entered : ¬Stray keys line := fun hstray => hstray key hkey raw h
    simp only [entered, false_and, or_false]
    rw [readLine_entry hkey h]
    constructor
    · intro hread
      split at hread
      · next n hn =>
        exact ⟨key, hkey, raw, n, h, quantity?_eq_some_iff.1 hn, (Except.ok.inj hread).symm⟩
      · cases hread
    · rintro ⟨key', -, raw', n, h', hn, rfl⟩
      obtain ⟨rfl, rfl⟩ := h.unique h'
      rw [quantity?_eq_some_iff.2 hn]
  · rw [readLine_stray h]
    constructor
    · intro hread
      exact Or.inr ⟨h, (Except.ok.inj hread).symm⟩
    · rintro (⟨key, hkey, raw, n, hentry, -⟩ | ⟨-, rfl⟩)
      · exact absurd hentry (h key hkey raw)
      · rfl

theorem readLine_eq_error_iff {why : Error} :
    readLine file keys found line = .error why ↔ Faulty file keys line why := by
  constructor
  · intro hread
    rcases line_cases keys line with ⟨key, hkey, raw, h⟩ | h
    · rw [readLine_entry hkey h] at hread
      split at hread
      · cases hread
      · next hnone =>
        obtain rfl := Except.error.inj hread
        exact .intro hkey h (not_amount_iff.2 hnone)
    · rw [readLine_stray h] at hread
      cases hread
  · rintro ⟨hkey, h, hraw⟩
    rw [readLine_entry hkey h, not_amount_iff.1 hraw]

end

/-! ### Runs over the lines -/

section

variable {file : String} {keys : List String} {ls : List (List Char)}

theorem sound_cons (file : String) {line : List Char} :
    Sound keys (line :: ls) ↔ (∀ why, ¬Faulty file keys line why) ∧ Sound keys ls := by
  rw [Sound, List.forall_mem_cons]
  refine and_congr_left fun _ => ⟨?_, fun h key hkey raw hentry => ?_⟩
  · rintro h _ ⟨hkey, hentry, hraw⟩
    obtain ⟨n, hn⟩ := h _ hkey _ hentry
    exact hraw n hn
  · by_contra hnone
    exact h _ (.intro hkey hentry (not_exists.1 hnone))

/-- A run goes to the end of the lines just if all of them are sound, whatever was found before. -/
theorem exists_run_iff (file : String) (found : SortedMap ℕ) :
    (∃ found', ls.foldlM (readLine file keys) found = .ok found') ↔ Sound keys ls := by
  induction ls generalizing found with
  | nil => exact ⟨fun _ => nofun, fun _ => ⟨found, rfl⟩⟩
  | cons line ls ih =>
    rw [sound_cons file]
    cases hread : readLine file keys found line with
    | error why =>
      rw [List.foldlM_cons, hread]
      exact ⟨nofun, fun h => absurd (readLine_eq_error_iff.1 hread) (h.1 why)⟩
    | ok next =>
      have fine : ∀ why, ¬Faulty file keys line why := by
        intro why hfault
        rw [readLine_eq_error_iff.2 hfault] at hread
        cases hread
      rw [List.foldlM_cons, hread]
      exact (ih next).trans ⟨fun h => ⟨fine, h⟩, fun h => h.2⟩

theorem Last.concat_stray {key : String} {v : Option ℕ} {line : List Char} (h : Last key ls v)
    (hline : ∀ raw, ¬Entry key raw line) : Last key (ls ++ [line]) v := by
  cases h with
  | absent h =>
    refine .absent fun other hother => ?_
    rcases List.mem_append.1 hother with hother | hother
    · exact h other hother
    · rwa [List.mem_singleton.1 hother]
  | @present before after entry raw n hentry hraw hafter =>
    rw [List.append_assoc, List.cons_append]
    refine .present hentry hraw fun later hlater => ?_
    rcases List.mem_append.1 hlater with hlater | hlater
    · exact hafter later hlater
    · rwa [List.mem_singleton.1 hlater]

theorem last_step {found found' : SortedMap ℕ} {line : List Char}
    (h : ∀ key ∈ keys, Last key ls (found.find? key))
    (hread : readLine file keys found line = .ok found') :
    ∀ key ∈ keys, Last key (ls ++ [line]) (found'.find? key) := by
  intro key hkey
  rcases readLine_eq_ok_iff.1 hread with ⟨name, -, raw, n, hentry, hraw, rfl⟩ | ⟨hstray, rfl⟩
  · rw [SortedMap.find?_insert]
    split_ifs with hname
    · subst hname
      exact .present hentry hraw nofun
    · exact (h key hkey).concat_stray fun raw' hother => hname (hother.unique hentry).1
  · exact (h key hkey).concat_stray (hstray key hkey)

theorem last_run {found : SortedMap ℕ} (h : ls.foldlM (readLine file keys) [] = .ok found) :
    ∀ key ∈ keys, Last key ls (found.find? key) := by
  induction ls using List.reverseRecOn generalizing found with
  | nil =>
    obtain rfl := Except.ok.inj h
    exact fun key _ => .absent nofun
  | append_singleton ls line ih =>
    obtain ⟨mid, hmid, hline⟩ := foldlM_append_eq_ok_iff.1 h
    rw [List.foldlM_cons] at hline
    obtain ⟨found', hread, hend⟩ := bind_eq_ok_iff.1 hline
    obtain rfl := Except.ok.inj hend
    exact last_step (ih hmid) hread

theorem tells_of_readKeys {content : String} {found : SortedMap ℕ}
    (h : readKeys file keys content = .ok found) :
    Tells keys (lines content.toList) found.find? :=
  ⟨(exists_run_iff file []).1 ⟨found, h⟩, last_run h⟩

theorem exists_readKeys (file : String) {content : String}
    (h : Sound keys (lines content.toList)) : ∃ found, readKeys file keys content = .ok found :=
  (exists_run_iff file []).2 h

theorem readKeys_eq_error_iff {content : String} {why : Error} :
    readKeys file keys content = .error why ↔ ∃ before line after,
      lines content.toList = before ++ line :: after ∧ Sound keys before ∧
        Faulty file keys line why := by
  rw [readKeys, foldlM_eq_error_iff]
  constructor
  · rintro ⟨before, line, after, mid, hlines, hbefore, hline⟩
    exact ⟨before, line, after, hlines, (exists_run_iff file []).1 ⟨mid, hbefore⟩,
      readLine_eq_error_iff.1 hline⟩
  · rintro ⟨before, line, after, hlines, hbefore, hline⟩
    obtain ⟨mid, hmid⟩ := (exists_run_iff file []).2 hbefore
    exact ⟨before, line, after, mid, hlines, hmid, readLine_eq_error_iff.2 hline⟩

end

/-! ### Other orders -/

/-- What a line says of a key, if it is one of the key. -/
def said? (key : String) (line : List Char) : Option (List Char) :=
  (Text.splitOnce? ':' line).bind fun cut => if cut.1 = key.toList then some cut.2 else none

section

variable {key : String} {keys : List String} {ls : List (List Char)} {v : Option ℕ}

theorem said?_eq_some_iff {raw line : List Char} :
    said? key line = some raw ↔ Entry key raw line := by
  rw [entry_iff, said?, Option.bind_eq_some_iff]
  constructor
  · rintro ⟨⟨name, rest⟩, hcut, h⟩
    obtain ⟨rfl, hrest⟩ := Option.ite_none_right_eq_some.1 h
    obtain rfl : rest = raw := Option.some.inj hrest
    exact hcut
  · intro h
    exact ⟨_, h, if_pos rfl⟩

theorem said?_eq_none_iff {line : List Char} :
    said? key line = none ↔ ∀ raw, ¬Entry key raw line := by
  simp only [← said?_eq_some_iff, Option.eq_none_iff_forall_ne_some, ne_eq]

theorem sound_iff :
    Sound keys ls ↔ ∀ key ∈ keys, ∀ raw ∈ ls.filterMap (said? key), ∃ n, Amount n raw := by
  simp only [Sound, List.mem_filterMap, said?_eq_some_iff]
  exact ⟨fun h key hkey raw ⟨line, hline, hentry⟩ => h line hline key hkey raw hentry,
    fun h line hline key hkey raw hentry => h key hkey raw ⟨line, hline, hentry⟩⟩

/-- Of all that is said of a key the last counts. -/
theorem last_iff : Last key ls v ↔
    (ls.filterMap (said? key)).getLast? = none ∧ v = none ∨
      ∃ raw n, (ls.filterMap (said? key)).getLast? = some raw ∧ Amount n raw ∧ v = some n := by
  constructor
  · intro h
    cases h with
    | absent h =>
      refine Or.inl ⟨?_, rfl⟩
      rw [List.getLast?_eq_none_iff, List.filterMap_eq_nil_iff]
      exact fun line hline => said?_eq_none_iff.2 (h line hline)
    | @present before after line raw n h hraw hafter =>
      have hnil : after.filterMap (said? key) = [] :=
        List.filterMap_eq_nil_iff.2 fun later hlater => said?_eq_none_iff.2 (hafter later hlater)
      refine Or.inr ⟨raw, n, ?_, hraw, rfl⟩
      rw [List.filterMap_append, List.filterMap_cons_some (said?_eq_some_iff.2 h), hnil]
      exact List.getLast?_concat
  · induction ls using List.reverseRecOn with
    | nil =>
      rintro (⟨-, rfl⟩ | ⟨raw, n, h, -⟩)
      · exact .absent nofun
      · cases h
    | append_singleton ls line ih =>
      rw [List.filterMap_append]
      cases hsaid : said? key line with
      | none =>
        rw [List.filterMap_cons_none hsaid, List.filterMap_nil, List.append_nil]
        exact fun h => (ih h).concat_stray (said?_eq_none_iff.1 hsaid)
      | some raw =>
        rw [List.filterMap_cons_some hsaid, List.filterMap_nil, List.getLast?_concat]
        rintro (⟨h, -⟩ | ⟨raw', n, h, hraw, rfl⟩)
        · cases h
        · obtain rfl := Option.some.inj h
          exact .present (said?_eq_some_iff.1 hsaid) hraw nofun

theorem Amount.unique {n m : ℕ} {raw : List Char} (h : Amount n raw) (h' : Amount m raw) :
    n = m :=
  Option.some.inj ((quantity?_eq_some_iff.2 h).symm.trans (quantity?_eq_some_iff.2 h'))

theorem Last.unique {w : Option ℕ} (h : Last key ls v) (h' : Last key ls w) : v = w := by
  rcases last_iff.1 h with ⟨hnone, rfl⟩ | ⟨raw, n, hraw, hn, rfl⟩
  · rcases last_iff.1 h' with ⟨-, rfl⟩ | ⟨raw, m, hraw, -, -⟩
    · rfl
    · rw [hnone] at hraw
      cases hraw
  · rcases last_iff.1 h' with ⟨hnone, -⟩ | ⟨raw', m, hraw', hm, rfl⟩
    · rw [hraw] at hnone
      cases hnone
    · obtain rfl := Option.some.inj (hraw.symm.trans hraw')
      rw [hn.unique hm]

theorem Last.eq_none_iff (h : Last key ls v) :
    v = none ↔ ∀ line ∈ ls, ∀ raw, ¬Entry key raw line := by
  cases h with
  | absent h => exact ⟨fun _ => h, fun _ => rfl⟩
  | @present before after line raw n hentry =>
    exact ⟨nofun, fun h => absurd hentry (h line (by simp) raw)⟩

theorem Tells.unique {found found' : String → Option ℕ} (h : Tells keys ls found)
    (h' : Tells keys ls found') : ∀ key ∈ keys, found key = found' key :=
  fun key hkey => (h.last key hkey).unique (h'.last key hkey)

/-- What is said of a key does not depend on lines of no key and on the order of different ones. -/
theorem Rearranged.filterMap_eq {a b : List (List Char)} (h : Rearranged keys a b)
    (hkey : key ∈ keys) : a.filterMap (said? key) = b.filterMap (said? key) := by
  induction h with
  | refl => rfl
  | @inserted line h before after =>
    have hsaid : said? key line = none := said?_eq_none_iff.2 (h key hkey)
    rw [List.filterMap_append, List.filterMap_append, List.filterMap_cons_none hsaid]
  | @permuted these those h apart before after =>
    -- no two of these lines say something of the key, so there is nothing to change places
    have hone : (these.filterMap (said? key)).Pairwise fun _ _ => False := by
      rw [List.pairwise_filterMap]
      refine apart.imp fun hapart raw hraw raw' hraw' => ?_
      exact hapart key hkey raw raw' (said?_eq_some_iff.1 hraw) (said?_eq_some_iff.1 hraw')
    have hperm := h.filterMap (said? key)
    have hone' := (hperm.pairwise_iff fun h => h).1 hone
    have hsame := hperm.eq_of_pairwise (fun _ _ _ _ h => h.elim) hone hone'
    simp only [List.filterMap_append, hsame]
  | symm _ ih => exact ih.symm
  | trans _ _ ih ih' => exact ih.trans ih'

theorem Rearranged.tells_iff {a b : List (List Char)} (h : Rearranged keys a b)
    {found : String → Option ℕ} : Tells keys a found ↔ Tells keys b found := by
  have transport {a b : List (List Char)}
      (h : ∀ key ∈ keys, a.filterMap (said? key) = b.filterMap (said? key))
      (ht : Tells keys a found) : Tells keys b found := by
    refine ⟨sound_iff.2 fun key hkey => ?_, fun key hkey => last_iff.2 ?_⟩
    · rw [← h key hkey]
      exact sound_iff.1 ht.sound key hkey
    · rw [← h key hkey]
      exact last_iff.1 (ht.last key hkey)
  exact ⟨transport fun _ hkey => h.filterMap_eq hkey,
    transport fun _ hkey => (h.filterMap_eq hkey).symm⟩

end
end Telemetry.Host
