import Telemetry.Proofs.Bounds
import Telemetry.Proofs.DurationText

/-! How long the intervals can be that a program starts with. Whoever gives one, a file, a flag or a
variable, gives a number of some unit, and that comes to less than two to the sixty-fourth seconds. -/

namespace Telemetry

namespace Duration

def Short (d : Duration) : Prop := d.nanos < 2 ^ 64 * 10 ^ 9

theorem short_ofSeconds {n : ℕ} (hn : n < 2 ^ 64) : (ofSeconds n).Short :=
  Nat.mul_lt_mul_of_pos_right hn (by decide)

theorem Measures.short {n : ℕ} {unit : String} {d : Duration} (hn : n < 2 ^ 64)
    (h : Measures n unit d) : d.Short := by
  cases h with
  | bare => exact short_ofSeconds hn
  | seconds => exact short_ofSeconds hn
  | millis =>
    show n * 10 ^ 6 < 2 ^ 64 * 10 ^ 9
    omega
  | minutes h => exact short_ofSeconds (by omega)
  | hours h => exact short_ofSeconds (by omega)

theorem Spells.short {d : Duration} {cs : List Char} (h : Spells d cs) : d.Short := by
  obtain ⟨-, -, -, hbound, -, hunit, -⟩ := h
  exact hunit.short hbound

theorem short_of_parse? {raw : String} {d : Duration} (h : parse? raw = some d) : d.Short :=
  (parse?_eq_some_iff.1 h).short

theorem FieldSays.short {field : Option Json} {d : Duration} (h : FieldSays field (some d)) :
    d.Short := by
  rcases h with _ | (_ | ⟨-, hk⟩ | ⟨-, hd⟩)
  · exact short_ofSeconds hk
  · exact hd.short

end Duration

theorem Layers.highest_of {α : Type} {P : α → Prop} {l : Layers α} (standard : P l.standard)
    (file : ∀ v ∈ l.file, P v) (flag : ∀ v ∈ l.flag, P v) (held : ∀ e ∈ l.held, P e.2) :
    P l.highest.value := by
  unfold highest
  split
  · next name v hheld => exact held (name, v) hheld
  · next v _ hflag => exact flag v hflag
  · next v _ _ hfile => exact file v hfile
  · exact standard

theorem Environment.short_held {env : Environment} {name : String} {e : String × Duration}
    (h : e ∈ env.held name Duration.parse?) : e.2.Short := by
  obtain ⟨raw, -, h⟩ := Option.bind_eq_some_iff.1 h
  obtain ⟨d, hd, rfl⟩ := Option.map_eq_some_iff.1 h
  exact Duration.short_of_parse? hd

/-- An interval that a file gives is one that a field of it says. -/
theorem Settings.Says.short {φ : Type} {d : Directory} {ofJson? : Json → Option φ} {absent file : φ}
    {path? : Option String} (h : Says d ofJson? absent path? file) {field : φ → Option Duration}
    (habsent : field absent = none)
    (hfield : ∀ json file, ofJson? json = some file → ∃ said, Duration.FieldSays said (field file)) :
    ∀ v ∈ field file, v.Short := by
  cases h with
  | absent =>
    rw [habsent]
    nofun
  | file _ _ hfile =>
    obtain ⟨said, hsaid⟩ := hfield _ file hfile
    intro v hv
    rw [Option.mem_def.1 hv] at hsaid
    exact hsaid.short

namespace Agent

open CommandLine in
theorem Options.short_parse {args : List String} {o : Options} (h : parse args = .ok o) :
    ∀ d ∈ o.reportInterval, d.Short := by
  refine parse_keeps (P := fun o => ∀ d ∈ o.reportInterval, d.Short) ?_ nofun h
  simp only [flags, List.forall_mem_cons]
  refine ⟨preserves_path fun _ _ h => h, preserves_text fun _ _ h => h,
    preserves_duration fun _ _ _ _ h => h, preserves_duration fun raw d hd o _ => ?_,
    preserves_text fun _ _ h => h, preserves_number fun _ _ _ _ h => h,
    preserves_path fun _ _ h => h, preserves_text fun _ _ h => h, by simp⟩
  rintro _ ⟨⟩
  exact Duration.short_of_parse? hd

theorem FileOptions.short_reportInterval {d : Directory} {path? : Option String}
    {file : FileOptions} (h : Settings.Says d ofJson? {} path? file) :
    ∀ v ∈ file.reportInterval, v.Short := by
  refine h.short rfl fun json file hjson => ?_
  obtain ⟨_, -, hfields⟩ := FileOptions.ofJson?_eq_some_iff.1 hjson
  obtain ⟨-, -, hreport, -, -⟩ := hfields
  exact ⟨_, hreport⟩

theorem Config.short_reportInterval {args : List String} {o : Options} {d : Directory}
    {env : Environment} {c : Config} (hargs : Options.parse args = .ok o)
    (h : resolve d o env = .ok c) : c.reportInterval.value.Short := by
  obtain ⟨file, v, hsays, -, -, -, rfl⟩ := ((exact_resolve (fun _ => True) d o env).ok trivial c).1 h
  have hstandard : defaultReportInterval.Short := Duration.short_ofSeconds (by decide)
  simp only [layered, Layers.unlessZero]
  split_ifs with hzero
  · exact hstandard
  · exact Layers.highest_of hstandard (FileOptions.short_reportInterval hsays)
      (Options.short_parse hargs) fun _ => Environment.short_held

end Agent

namespace Collector

open CommandLine in
theorem Options.short_parse {args : List String} {o : Options} (h : parse args = .ok o) :
    ∀ d ∈ o.storeInterval, d.Short := by
  refine parse_keeps (P := fun o => ∀ d ∈ o.storeInterval, d.Short) ?_ nofun h
  simp only [flags, List.forall_mem_cons]
  refine ⟨preserves_path fun _ _ h => h, preserves_text fun _ _ h => h,
    preserves_duration fun raw d hd o _ => ?_, preserves_path fun _ _ h => h,
    preserves_truth fun _ _ h => h, preserves_text fun _ _ h => h, preserves_text fun _ _ h => h,
    preserves_path fun _ _ h => h, preserves_text fun _ _ h => h, by simp⟩
  rintro _ ⟨⟩
  exact Duration.short_of_parse? hd

theorem FileOptions.short_storeInterval {d : Directory} {path? : Option String}
    {file : FileOptions} (h : Settings.Says d ofJson? {} path? file) :
    ∀ v ∈ file.storeInterval, v.Short := by
  refine h.short rfl fun json file hjson => ?_
  obtain ⟨_, -, hfields⟩ := FileOptions.ofJson?_eq_some_iff.1 hjson
  obtain ⟨-, -, hinterval, -, -, -⟩ := hfields
  exact ⟨_, hinterval⟩

theorem Config.short_storeInterval {args : List String} {o : Options} {d : Directory}
    {env : Environment} {c : Config} (hargs : Options.parse args = .ok o)
    (h : resolve d o env = .ok c) : c.storeInterval.value.Short := by
  obtain ⟨file, v, hsays, -, -, -, rfl⟩ := ((exact_resolve (fun _ => True) d o env).ok trivial c).1 h
  have hstandard : defaultStoreInterval.Short := Duration.short_ofSeconds (by decide)
  exact Layers.highest_of hstandard (FileOptions.short_storeInterval hsays)
    (Options.short_parse hargs) fun _ => Environment.short_held

end Collector
end Telemetry
