import Telemetry.Proofs.Keyed

/-! Which files about memory are read, and as what. Both readers go through the same lines with keys
of their own (`ReadsExactly`); some of the keys must have a line, and for the others there is something
to stand for them. -/

namespace Telemetry.Host

open Text (lines)

variable {α : Type}

/-- A file is read just if the lines of the keys are sound and each required key has one, and then as
what the last line of each key says. Or else the first line at fault is named, or what is missing. -/
structure ReadsExactly (file : String) (keys required : List String) (what : String)
    (parse : String → Except Error α) (Fills : (String → Option ℕ) → α → Prop) : Prop where
  ok : ∀ content info, parse content = .ok info ↔
    ∃ found, Tells keys (lines content.toList) found ∧ Fills found info
  succeeds : ∀ content, (∃ info, parse content = .ok info) ↔
    Sound keys (lines content.toList) ∧
      ∀ key ∈ required, ∃ line ∈ lines content.toList, ∃ raw, Entry key raw line
  error : ∀ content why, parse content = .error why ↔
    (∃ before line after, lines content.toList = before ++ line :: after ∧ Sound keys before ∧
      Faulty file keys line why) ∨
    Sound keys (lines content.toList) ∧ why = .missing file what ∧
      ∃ key ∈ required, ∀ line ∈ lines content.toList, ∀ raw, ¬Entry key raw line
  moved : ∀ content content', Rearranged keys (lines content.toList) (lines content'.toList) →
    (parse content).toOption = (parse content').toOption
  spoiled : ∀ content, ∀ line ∈ lines content.toList, ∀ why, Faulty file keys line why →
    ∃ why', parse content = .error why'

/-- A reader of keys whose end depends on what was found of them, and fails only for want of one that
is required. -/
structure Finishes (file : String) (keys required : List String) (what : String)
    (finish : SortedMap ℕ → Except Error α) (Fills : (String → Option ℕ) → α → Prop) : Prop where
  subset : required ⊆ keys
  alone : ∀ found found' info, (∀ key ∈ keys, found key = found' key) → Fills found info →
    Fills found' info
  ok : ∀ found info, finish found = .ok info ↔ Fills found.find? info
  error : ∀ found why, finish found = .error why ↔
    why = .missing file what ∧ ∃ key ∈ required, found.find? key = none

namespace Finishes

variable {file what : String} {keys required : List String}
  {finish : SortedMap ℕ → Except Error α} {Fills : (String → Option ℕ) → α → Prop}
  (h : Finishes file keys required what finish Fills)

include h

theorem ok_iff {content : String} {info : α} :
    readKeys file keys content >>= finish = .ok info ↔
      ∃ found, Tells keys (lines content.toList) found ∧ Fills found info := by
  rw [bind_eq_ok_iff]
  constructor
  · rintro ⟨found, hread, hfinish⟩
    exact ⟨found.find?, tells_of_readKeys hread, (h.ok found info).1 hfinish⟩
  · rintro ⟨found, htells, hfills⟩
    obtain ⟨read, hread⟩ := exists_readKeys file htells.sound
    have hsame := htells.unique (tells_of_readKeys hread)
    exact ⟨read, hread, (h.ok read info).2 (h.alone _ _ info hsame hfills)⟩

theorem error_iff {content : String} {why : Error} :
    readKeys file keys content >>= finish = .error why ↔
      (∃ before line after, lines content.toList = before ++ line :: after ∧ Sound keys before ∧
        Faulty file keys line why) ∨
      Sound keys (lines content.toList) ∧ why = .missing file what ∧
        ∃ key ∈ required, ∀ line ∈ lines content.toList, ∀ raw, ¬Entry key raw line := by
  rw [bind_eq_error_iff, readKeys_eq_error_iff]
  refine or_congr_right ?_
  have absent {found : SortedMap ℕ} (hread : readKeys file keys content = .ok found) :
      finish found = .error why ↔ why = .missing file what ∧
        ∃ key ∈ required, ∀ line ∈ lines content.toList, ∀ raw, ¬Entry key raw line := by
    rw [h.error]
    refine and_congr_right fun _ => exists_congr fun key => and_congr_right fun hkey => ?_
    exact ((tells_of_readKeys hread).last key (h.subset hkey)).eq_none_iff
  constructor
  · rintro ⟨found, hread, hfinish⟩
    exact ⟨(tells_of_readKeys hread).sound, (absent hread).1 hfinish⟩
  · rintro ⟨hsound, hmissing⟩
    obtain ⟨found, hread⟩ := exists_readKeys file hsound
    exact ⟨found, hread, (absent hread).2 hmissing⟩

theorem succeeds_iff {content : String} :
    (∃ info, readKeys file keys content >>= finish = .ok info) ↔
      Sound keys (lines content.toList) ∧
        ∀ key ∈ required, ∃ line ∈ lines content.toList, ∃ raw, Entry key raw line := by
  constructor
  · rintro ⟨info, hinfo⟩
    obtain ⟨found, htells, -⟩ := h.ok_iff.1 hinfo
    refine ⟨htells.sound, fun key hkey => ?_⟩
    by_contra hnone
    have hmissing := h.error_iff.2 (Or.inr ⟨htells.sound, rfl, key, hkey, by simpa using hnone⟩)
    rw [hmissing] at hinfo
    cases hinfo
  · rintro ⟨hsound, hrequired⟩
    cases hread : readKeys file keys content >>= finish with
    | ok info => exact ⟨info, rfl⟩
    | error why =>
      obtain ⟨found, hfound⟩ := exists_readKeys file hsound
      rcases h.error_iff.1 hread with hfault | ⟨-, -, key, hkey, hnone⟩
      · rw [readKeys_eq_error_iff.2 hfault] at hfound
        cases hfound
      · obtain ⟨line, hline, raw, hentry⟩ := hrequired key hkey
        exact absurd hentry (hnone line hline raw)

theorem readsExactly {parse : String → Except Error α}
    (hparse : ∀ content, parse content = readKeys file keys content >>= finish) :
    ReadsExactly file keys required what parse Fills := by
  obtain rfl : parse = fun content => readKeys file keys content >>= finish := funext hparse
  refine ⟨fun _ _ => h.ok_iff, fun _ => h.succeeds_iff, fun _ _ => h.error_iff,
    fun content content' hmoved => Option.ext fun info => ?_, fun content line hline why hfault => ?_⟩
  · have hok (content : String) : (readKeys file keys content >>= finish).toOption = some info ↔
        readKeys file keys content >>= finish = .ok info := by
      cases readKeys file keys content >>= finish <;> simp [Except.toOption]
    rw [hok, hok, h.ok_iff, h.ok_iff]
    exact exists_congr fun found => and_congr_left fun _ => hmoved.tells_iff
  · cases hread : readKeys file keys content >>= finish with
    | error why' => exact ⟨why', rfl⟩
    | ok info =>
      obtain ⟨found, htells, -⟩ := h.ok_iff.1 hread
      obtain ⟨hkey, hentry, hraw⟩ := hfault
      obtain ⟨n, hn⟩ := htells.sound line hline _ hkey _ hentry
      exact absurd hn (hraw n)

end Finishes

namespace MemoryInfo

structure Fills (found : String → Option ℕ) (info : MemoryInfo) : Prop where
  total : found "MemTotal" = some info.total
  free : found "MemFree" = some info.free
  available : found "MemAvailable" = info.available

/-- What is made of the quantities once all lines are read. -/
def ofFound (found : SortedMap ℕ) : Except Error MemoryInfo :=
  match found.find? "MemTotal", found.find? "MemFree" with
  | some total, some free => .ok ⟨total, free, found.find? "MemAvailable"⟩
  | _, _ => .error (.missing "meminfo" "MemTotal or MemFree")

theorem parse_eq (content : String) : parse content = readKeys "meminfo" keys content >>= ofFound :=
  rfl

theorem finishes_ofFound :
    Finishes "meminfo" keys ["MemTotal", "MemFree"] "MemTotal or MemFree" ofFound Fills where
  subset := by decide
  alone := by
    rintro found found' info hsame ⟨total, free, available⟩
    rw [hsame _ (by decide)] at total free available
    exact ⟨total, free, available⟩
  ok := by
    intro found info
    unfold ofFound
    cases htotal : found.find? "MemTotal" with
    | none => exact ⟨nofun, fun h => by cases htotal.symm.trans h.total⟩
    | some total =>
      cases hfree : found.find? "MemFree" with
      | none => exact ⟨nofun, fun h => by cases hfree.symm.trans h.free⟩
      | some free =>
        constructor
        · rintro ⟨⟩
          exact ⟨htotal, hfree, rfl⟩
        · obtain ⟨_, _, _⟩ := info
          rintro ⟨h, h', rfl⟩
          obtain rfl := Option.some.inj (htotal.symm.trans h)
          obtain rfl := Option.some.inj (hfree.symm.trans h')
          rfl
  error := by
    intro found why
    unfold ofFound
    cases htotal : found.find? "MemTotal" <;> cases hfree : found.find? "MemFree" <;>
      simp [htotal, hfree, eq_comm]

end MemoryInfo

namespace ProcessInfo

structure Fills (found : String → Option ℕ) (info : ProcessInfo) : Prop where
  resident : found "VmRSS" = some info.resident
  virtual : (found "VmSize").getD 0 = info.virtual
  peak : (found "VmPeak").getD 0 = info.peak
  threads : (found "Threads").getD 0 = info.threads

/-- What is made of the quantities once all lines are read. -/
def ofFound (found : SortedMap ℕ) : Except Error ProcessInfo :=
  match found.find? "VmRSS" with
  | some resident =>
    .ok ⟨resident, (found.find? "VmSize").getD 0, (found.find? "VmPeak").getD 0,
      (found.find? "Threads").getD 0⟩
  | none => .error (.missing "self/status" "VmRSS")

theorem parse_eq (content : String) :
    parse content = readKeys "self/status" keys content >>= ofFound := rfl

theorem finishes_ofFound : Finishes "self/status" keys ["VmRSS"] "VmRSS" ofFound Fills where
  subset := by decide
  alone := by
    rintro found found' info hsame ⟨resident, virtual, peak, threads⟩
    rw [hsame _ (by decide)] at resident virtual peak threads
    exact ⟨resident, virtual, peak, threads⟩
  ok := by
    intro found info
    unfold ofFound
    cases hresident : found.find? "VmRSS" with
    | none => exact ⟨nofun, fun h => by cases hresident.symm.trans h.resident⟩
    | some resident =>
      constructor
      · rintro ⟨⟩
        exact ⟨hresident, rfl, rfl, rfl⟩
      · obtain ⟨_, _, _, _⟩ := info
        rintro ⟨h, rfl, rfl, rfl⟩
        obtain rfl := Option.some.inj (hresident.symm.trans h)
        rfl
  error := by
    intro found why
    unfold ofFound
    cases hresident : found.find? "VmRSS" <;> simp [hresident, eq_comm]

end ProcessInfo

/-- The memory of a host and of a process are read from the files that have what they must and no line
at fault, and from no others. -/
theorem memory_files_are_read_exactly :
    ReadsExactly "meminfo" MemoryInfo.keys ["MemTotal", "MemFree"] "MemTotal or MemFree"
      MemoryInfo.parse MemoryInfo.Fills ∧
    ReadsExactly "self/status" ProcessInfo.keys ["VmRSS"] "VmRSS" ProcessInfo.parse
      ProcessInfo.Fills :=
  ⟨MemoryInfo.finishes_ofFound.readsExactly MemoryInfo.parse_eq,
    ProcessInfo.finishes_ofFound.readsExactly ProcessInfo.parse_eq⟩

/-- A file in another order and with a line of no key, where the numbers are written otherwise, and one
with a line at fault that a later line would mend; and a process with two lines of one key. -/
theorem memory_is_read_from_any_order :
    let plain := "MemTotal: 100 kB\nMemFree: 50\n"
    let moved := "Buffers: 3 MB\r\nMemFree: 50\nMemTotal: 100 kB"
    let spoiled := "MemTotal: lots kB\nMemFree: 50\nMemTotal: 100 kB\n"
    let status := "VmRSS:\t+04 kB of it\nVmRSS:\u2003 7\n"
    MemoryInfo.parse plain = .ok ⟨102400, 50, none⟩ ∧
      (MemoryInfo.parse moved).toOption = some ⟨102400, 50, none⟩ ∧
      (∃ why, MemoryInfo.parse spoiled = .error why) ∧
      ∃ found, Tells ProcessInfo.keys (lines status.toList) found ∧
        ProcessInfo.Fills found ⟨7, 0, 0, 0⟩ := by
  intro plain moved spoiled status
  obtain ⟨memory, process⟩ := memory_files_are_read_exactly
  have hplain : MemoryInfo.parse plain = .ok ⟨102400, 50, none⟩ := by decide +kernel
  have total : Entry "MemTotal" " 100 kB".toList "MemTotal: 100 kB".toList := ⟨rfl, by decide⟩
  have free : Entry "MemFree" " 50".toList "MemFree: 50".toList := ⟨rfl, by decide⟩
  have buffers : Entry "Buffers" " 3 MB".toList "Buffers: 3 MB".toList := ⟨rfl, by decide⟩
  have bad : Entry "MemTotal" " lots kB".toList "MemTotal: lots kB".toList := ⟨rfl, by decide⟩
  have stray : Stray MemoryInfo.keys "Buffers: 3 MB".toList := buffers.stray (by decide)
  have apart := List.pairwise_pair.2 (total.apart free (by decide) MemoryInfo.keys)
  have hmoved : Rearranged MemoryInfo.keys (lines plain.toList) (lines moved.toList) := by
    have before : lines plain.toList = ["MemTotal: 100 kB".toList, "MemFree: 50".toList] := by
      decide +kernel
    have after : lines moved.toList =
        ["Buffers: 3 MB".toList, "MemFree: 50".toList, "MemTotal: 100 kB".toList] := by
      decide +kernel
    rw [before, after]
    exact .trans (.permuted (.swap _ _ []) apart [] []) (.inserted stray [] _)
  have hbad : "MemTotal: lots kB".toList ∈ lines spoiled.toList := by decide +kernel
  refine ⟨hplain, ?_, ?_, ?_⟩
  · rw [← memory.moved _ _ hmoved, hplain]
    rfl
  · exact memory.spoiled _ _ hbad _ (.intro (by decide) bad (not_amount_iff.2 (by decide)))
  · exact (process.ok status ⟨7, 0, 0, 0⟩).1 (by decide +kernel)

end Telemetry.Host
