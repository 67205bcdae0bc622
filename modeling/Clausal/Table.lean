/-!
# Tables

A table gives values to keys and remembers the order of insertion, so that the keys that came after
some size can be forgotten again. It keeps the hash of each key: large keys that differ only deep
inside take long to compare, and different hashes tell them apart at once. Main statement:
`get?_eq_lookup`, by which the hashes change no answer.
-/

namespace Clausal

namespace Table

/-- A key with its value, and the hash of the key. -/
structure Entry (κ α : Type) [Hashable κ] where
  key : κ
  value : α
  code : UInt64
  code_eq : code = hash key

namespace Entry

variable {κ α : Type} [Hashable κ]

def of (key : κ) (value : α) : Entry κ α := ⟨key, value, hash key, rfl⟩

def pair (e : Entry κ α) : κ × α := (e.key, e.value)

/-- Whether an entry is on a key, the hash of which is given. -/
def isOn [BEq κ] (e : Entry κ α) (key : κ) (code : UInt64) : Bool := e.code == code && e.key == key

@[simp] theorem pair_of (key : κ) (value : α) : (of key value).pair = (key, value) := rfl

/-- Equal keys have equal hashes, so comparing the hashes first changes nothing. -/
theorem isOn_hash [BEq κ] [LawfulBEq κ] (e : Entry κ α) (key : κ) :
    e.isOn key (hash key) = (key == e.key) := by
  have comm : (key == e.key) = (e.key == key) := BEq.comm
  rw [isOn, e.code_eq, comm]
  cases h : e.key == key with
  | true => simp [eq_of_beq h]
  | false => simp

end Entry

end Table

/-- The entries of a table, the latest first. -/
structure Table (κ α : Type) [Hashable κ] where
  entries : List (Table.Entry κ α) := []

namespace Table

variable {κ α : Type} [Hashable κ]

def size (t : Table κ α) : Nat := t.entries.length

/-- The keys with their values, in the order of insertion. -/
def toList (t : Table κ α) : List (κ × α) := (t.entries.map Entry.pair).reverse

def get? [BEq κ] (t : Table κ α) (key : κ) : Option α :=
  let code := hash key
  (t.entries.find? (·.isOn key code)).map Entry.value

def insert (t : Table κ α) (key : κ) (value : α) : Table κ α := ⟨.of key value :: t.entries⟩

/-- The entries whose values pass a test. -/
def keep (t : Table κ α) (test : α → Bool) : Table κ α := ⟨t.entries.filter (test ·.value)⟩

/-- The first entries, as many as given, but for those on a key that also came later. -/
def forget [BEq κ] (t : Table κ α) (size : Nat) : Table κ α :=
  let later := t.entries.take (t.size - size)
  ⟨(t.entries.drop (t.size - size)).filter fun e => !later.any (·.isOn e.key e.code)⟩

@[simp] theorem toList_insert (t : Table κ α) (key : κ) (value : α) :
    (t.insert key value).toList = t.toList ++ [(key, value)] := by
  simp [insert, toList]

/-- Looking up a key gives what looking through the keys finds, the latest first. -/
theorem get?_eq_lookup [BEq κ] [LawfulBEq κ] (t : Table κ α) (key : κ) :
    t.get? key = t.toList.reverse.lookup key := by
  simp only [get?, toList, List.reverse_reverse]
  induction t.entries with
  | nil => rfl
  | cons e rest ih =>
    rw [List.find?_cons, Entry.isOn_hash, List.map_cons, Entry.pair, List.lookup_cons]
    cases key == e.key with
    | true => rfl
    | false => exact ih

theorem get?_insert [BEq κ] [LawfulBEq κ] [DecidableEq κ] (t : Table κ α) (key other : κ)
    (value : α) :
    (t.insert key value).get? other = if other = key then some value else t.get? other := by
  rw [get?_eq_lookup, get?_eq_lookup, toList_insert, List.reverse_append, List.reverse_singleton,
    List.singleton_append, List.lookup_cons]
  by_cases h : other = key
  · simp [h]
  · simp [h, beq_eq_false_iff_ne.mpr h]

/-- A key is unknown if no entry is on it. -/
theorem get?_eq_none_iff [BEq κ] [LawfulBEq κ] {t : Table κ α} {key : κ} :
    t.get? key = none ↔ ∀ e ∈ t.entries, e.key ≠ key := by
  simp only [get?, Option.map_eq_none_iff, List.find?_eq_none, Entry.isOn_hash, beq_iff_eq]
  exact forall₂_congr fun e _ => not_congr eq_comm

end Table

end Clausal
