/-!
Maps from names to values as lists sorted by name. Names compare by their characters, which is the
order of their UTF-8 bytes. Looking up after `insert` finds the value inserted under that name and
all others as before (`find?_insert`).
-/

namespace Telemetry

abbrev SortedMap (β : Type) := List (String × β)

namespace SortedMap

def find? (m : SortedMap β) (name : String) : Option β := m.lookup name

def insert (name : String) (value : β) : SortedMap β → SortedMap β
  | [] => [(name, value)]
  | (n, v) :: rest =>
    if name < n then (name, value) :: (n, v) :: rest
    else if name = n then (name, value) :: rest
    else (n, v) :: insert name value rest

def ofList (entries : List (String × β)) : SortedMap β :=
  entries.foldl (fun m e => insert e.1 e.2 m) []

theorem find?_insert (m : SortedMap β) (name key : String) (value : β) :
    find? (insert name value m) key = if key = name then some value else find? m key := by
  induction m with
  | nil =>
    by_cases h : key = name
    · simp [insert, find?, h]
    · simp [insert, find?, List.lookup_cons, h, beq_false_of_ne h]
  | cons e rest ih =>
    obtain ⟨n, v⟩ := e
    simp only [insert]
    split
    · by_cases h : key = name
      · simp [find?, h]
      · simp [find?, List.lookup_cons, h, beq_false_of_ne h]
    · split
      · next hn =>
        subst hn
        by_cases h : key = name
        · simp [find?, h]
        · simp [find?, List.lookup_cons, h, beq_false_of_ne h]
      · next hn =>
        by_cases h : key = n
        · subst h
          simp [find?, Ne.symm hn]
        · simpa [find?, List.lookup_cons, beq_false_of_ne h] using ih

end SortedMap
end Telemetry
