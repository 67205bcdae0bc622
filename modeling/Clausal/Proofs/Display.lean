import Clausal.Proofs.Interning
import Clausal.Proofs.Invariant
import Clausal.Proofs.Reading
import Std.Data.TreeMap.Lemmas
import Mathlib.Data.List.Perm.Subperm

/-!
What is printed of a model. Each symbol that a knowledge base has registered has a value in every
model, but values are gathered by name, and symbols of different sessions may have one name: the
printed model has one entry for each name. It shows every symbol exactly if no two have one name, as
is so for the symbols of one session. Main statement: `printed_by_name`.
-/

namespace Clausal

theorem Table.mem_keys_iff {κ α : Type} [Hashable κ] [BEq κ] [LawfulBEq κ] {t : Table κ α} {key : κ} :
    key ∈ t.keys ↔ ∃ value, t.get? key = some value := by
  have unknown : t.get? key = none ↔ key ∉ t.keys := by
    rw [get?_eq_none_iff, keys, toList]
    simp [Entry.pair]
  rw [← Option.ne_none_iff_exists', ne_eq, unknown, not_not]

/-- The symbol that an expression is, if it is one. -/
def Expr.symbol? : Expr → Option Symbol
  | .symbol s => some s
  | _ => none

theorem Expr.symbol?_eq_some {e : Expr} {s : Symbol} : e.symbol? = some s ↔ e = .symbol s := by
  cases e <;> simp [symbol?]

namespace KnowledgeBase

variable {kb more : KnowledgeBase} {allowed : Config → Prop} {added : List (List Expr)} {v : Valuation}
  {s t : Symbol}

/-- The integer symbols, in the order they were encoded. -/
def integers (kb : KnowledgeBase) : List Symbol := kb.encodings.keys.filterMap Expr.symbol?

/-- The boolean symbols and the integer symbols, each in the order they were registered. -/
def registered (kb : KnowledgeBase) : List Symbol := kb.booleans.keys ++ kb.integers

/-- The latest of the registered symbols of a name. -/
def named? (kb : KnowledgeBase) (name : String) : Option Symbol :=
  kb.registered.reverse.find? (·.name == name)

section Registered

theorem mem_integers : s ∈ kb.integers ↔ ∃ enc, kb.encodings.get? (.symbol s) = some enc := by
  simp only [integers, List.mem_filterMap, Expr.symbol?_eq_some, exists_eq_right, Table.mem_keys_iff]

theorem mem_registered : s ∈ kb.registered ↔
    (∃ a, kb.booleans.get? s = some a) ∨ ∃ enc, kb.encodings.get? (.symbol s) = some enc := by
  rw [registered, List.mem_append, Table.mem_keys_iff, mem_integers]

/-- No symbol is both, as its kind says which it is. -/
theorem WellFormed.boolean_of_mem (formed : kb.WellFormed) (member : s ∈ kb.booleans.keys) :
    s.isBoolean = true := by
  obtain ⟨a, found⟩ := Table.mem_keys_iff.mp member
  exact formed.boolean s a found

theorem WellFormed.integer_of_mem (formed : kb.WellFormed) (member : s ∈ kb.integers) :
    s.isBoolean = false := by
  obtain ⟨enc, found⟩ := mem_integers.mp member
  exact (formed.encoded _ enc found).2

/-- Only new boolean symbols get atoms. -/
theorem Step.nodup_booleans (step : kb.Step more) (distinct : kb.booleans.keys.Nodup) :
    more.booleans.keys.Nodup := by
  cases step with
  | boolean new boolean room => exact Table.nodup_insert new distinct _
  | symbol new integer small room => exact distinct
  | constant new => exact distinct
  | sum new first second domain small room => exact distinct
  | comparison new first second room => exact distinct

theorem Reachable.nodup_booleans (reached : Reachable allowed kb) : kb.booleans.keys.Nodup := by
  refine reached.keep (fun _ => List.nodup_nil) (fun _ step distinct => step.nodup_booleans distinct)
    (fun c distinct => ?_) fun _ distinct => distinct
  rw [store_frame]
  exact distinct

/-- No symbol is registered twice. -/
theorem Reachable.nodup_registered (reached : Reachable allowed kb) : kb.registered.Nodup := by
  obtain ⟨added, faithful⟩ := reached.faithful
  have formed := faithful.toWellFormed
  have integers : kb.integers.Nodup := by
    refine reached.traced.encodings.filterMap fun e e' s is is' => ?_
    exact (Expr.symbol?_eq_some.mp is).trans (Expr.symbol?_eq_some.mp is').symm
  refine List.nodup_append.mpr ⟨reached.nodup_booleans, integers, fun s boolean t integer same => ?_⟩
  subst same
  exact Bool.noConfusion ((formed.boolean_of_mem boolean).symm.trans (formed.integer_of_mem integer))

theorem named?_eq_some {name : String} (found : kb.named? name = some s) :
    s ∈ kb.registered ∧ s.name = name :=
  ⟨List.mem_reverse.mp (List.mem_of_find?_eq_some found), by simpa using List.find?_some found⟩

theorem exists_named? (member : s ∈ kb.registered) : ∃ t, kb.named? s.name = some t := by
  rw [← Option.isSome_iff_exists, named?, List.find?_isSome]
  exact ⟨s, List.mem_reverse.mpr member, beq_self_eq_true _⟩

/-- Integer symbols come after the boolean ones, so they come first when looked through backwards. -/
theorem integer_of_named? (member : s ∈ kb.integers) (found : kb.named? s.name = some t) :
    t ∈ kb.integers := by
  rw [named?, registered, List.reverse_append, List.find?_append] at found
  have known : (kb.integers.reverse.find? (·.name == s.name)).isSome = true :=
    List.find?_isSome.mpr ⟨s, List.mem_reverse.mpr member, beq_self_eq_true _⟩
  obtain ⟨u, first⟩ := Option.isSome_iff_exists.mp known
  rw [first, Option.some_or, Option.some.injEq] at found
  exact List.mem_reverse.mp (List.mem_of_find?_eq_some (found ▸ first))

end Registered

end KnowledgeBase

namespace Model

open KnowledgeBase

variable {m : Model} {s : Symbol} {name text : String}

/-- The value of a symbol in writing, as it is read for the kind of the symbol. -/
def value? (m : Model) (s : Symbol) : Option String :=
  if s.isBoolean then (m.boolean? s).map toString else (m.integer? s).map toString

/-- A symbol with its value in writing. -/
def printed? (m : Model) (s : Symbol) : Option (String × String) := (m.value? s).map (s.name, ·)

/-- The symbols whose values are printed, in the order of the entries. -/
def shown (m : Model) : List Symbol := m.entries.filterMap fun entry => m.kb.named? entry.1

/-- Every registered symbol has a value. -/
def Total (m : Model) : Prop := ∀ s ∈ m.kb.registered, ∃ text, m.value? s = some text

/-- A model is printed as the entries of some symbols: of registered ones, each at most once, in order of
their names, which are all the names of registered symbols. An integer symbol is not hidden by a boolean one. -/
structure Prints (m : Model) (shown : List Symbol) : Prop where
  text : ∃ entries : List (String × String), shown.map m.printed? = entries.map some ∧
    m.text = "\x7b" ++ String.intercalate ", " (entries.map fun (name, value) => name ++ ": " ++ value) ++ "\x7d"
  registered : shown.Subperm m.kb.registered
  ordered : (shown.map Symbol.name).Pairwise (· < ·)
  names : ∀ s ∈ m.kb.registered, s.name ∈ shown.map Symbol.name
  integers : ∀ s ∈ m.kb.registered, s.isBoolean = false → ∀ t ∈ shown, t.name = s.name → t.isBoolean = false

section Entries

theorem getElem?_foldl_insert (pairs : List (String × String)) (name : String) :
    (pairs.foldl (fun byName (name, value) => byName.insert name value)
      (∅ : Std.TreeMap String String))[name]? = pairs.reverse.lookup name := by
  induction pairs using List.reverseRecOn with
  | nil => rfl
  | append_singleton pairs pair ih =>
    obtain ⟨key, value⟩ := pair
    rw [List.foldl_append, List.foldl_cons, List.foldl_nil, Std.TreeMap.getElem?_insert, ih,
      List.reverse_append, List.reverse_singleton, List.singleton_append, List.lookup_cons]
    by_cases same : name = key
    · simp [same]
    · simp [beq_eq_false_iff_ne.mpr same, Ne.symm same]

theorem mem_entries :
    (name, text) ∈ m.entries ↔ (m.booleanEntries ++ m.integerEntries).reverse.lookup name = some text := by
  rw [entries, Std.TreeMap.mem_toList_iff_getElem?_eq_some, getElem?_foldl_insert]

theorem ordered_entries (m : Model) : (m.entries.map Prod.fst).Pairwise (· < ·) := by
  rw [List.pairwise_map]
  refine Std.TreeMap.ordered_keys_toList.imp fun {a b} less => ?_
  exact compareOfLessAndEq_eq_lt.mp less

/-- The entries are those of the registered symbols, in their order. -/
theorem gathered_eq (formed : m.kb.WellFormed) :
    m.booleanEntries ++ m.integerEntries = m.kb.registered.filterMap m.printed? := by
  rw [registered, List.filterMap_append]
  congr 1
  · rw [booleanEntries, Table.keys, List.filterMap_map]
    refine List.filterMap_congr ?_
    rintro ⟨s, a⟩ member
    have boolean := formed.boolean_of_mem (List.mem_map_of_mem member)
    simp [printed?, value?, boolean, Function.comp_def]
  · rw [integerEntries, integers, Table.keys, List.filterMap_map, List.filterMap_filterMap]
    refine List.filterMap_congr ?_
    rintro ⟨e, enc⟩ member
    cases e with
    | symbol s =>
      have integer : s.isBoolean = false := formed.integer_of_mem <|
        List.mem_filterMap.mpr ⟨_, List.mem_map_of_mem member, rfl⟩
      simp [printed?, value?, integer, Expr.symbol?, Function.comp_def]
    | constant value => rfl
    | sum left right => rfl
    | not e => rfl
    | compare op left right => rfl

/-- Looking up a name in the entries of some symbols finds the value of the first of that name. -/
theorem lookup_filterMap_printed? {ss : List Symbol} (total : ∀ s ∈ ss, ∃ text, m.value? s = some text)
    (name : String) : (ss.filterMap m.printed?).lookup name = (ss.find? (·.name == name)).bind m.value? := by
  induction ss with
  | nil => rfl
  | cons s rest ih =>
    obtain ⟨⟨text, value⟩, others⟩ := List.forall_mem_cons.mp total
    have entry : m.printed? s = some (s.name, text) := by rw [printed?, value, Option.map_some]
    rw [List.filterMap_cons_some entry, List.lookup_cons, List.find?_cons]
    by_cases same : name = s.name
    · simp [same, value]
    · simp only [beq_eq_false_iff_ne.mpr same, beq_eq_false_iff_ne.mpr (Ne.symm same), ih others]

theorem mem_entries_iff (formed : m.kb.WellFormed) (total : m.Total) :
    (name, text) ∈ m.entries ↔ ∃ s, m.kb.named? name = some s ∧ m.value? s = some text := by
  have reversed : ∀ s ∈ m.kb.registered.reverse, ∃ text, m.value? s = some text :=
    fun s member => total s (List.mem_reverse.mp member)
  rw [mem_entries, gathered_eq formed, ← List.filterMap_reverse, lookup_filterMap_printed? reversed,
    Option.bind_eq_some_iff, named?]

end Entries

section Shown

variable (formed : m.kb.WellFormed) (total : m.Total)

include formed total

/-- Each entry is that of a symbol of its name. -/
theorem symbol_of_entry : ∀ entry ∈ m.entries,
    ∃ s, m.kb.named? entry.1 = some s ∧ s.name = entry.1 ∧ m.printed? s = some entry := by
  rintro ⟨name, text⟩ member
  obtain ⟨s, named, value⟩ := (mem_entries_iff formed total).mp member
  obtain ⟨-, same⟩ := named?_eq_some named
  exact ⟨s, named, same, by rw [printed?, value, Option.map_some, same]⟩

theorem map_printed?_shown : m.shown.map m.printed? = m.entries.map some := by
  rw [shown, List.map_filterMap, List.filterMap_eq_map_iff_forall_eq_some]
  intro entry member
  obtain ⟨s, named, -, own⟩ := symbol_of_entry formed total entry member
  rw [named, Option.map_some, own]

theorem map_name_shown : m.shown.map Symbol.name = m.entries.map Prod.fst := by
  rw [shown, List.map_filterMap, List.filterMap_eq_map_iff_forall_eq_some]
  intro entry member
  obtain ⟨s, named, same, -⟩ := symbol_of_entry formed total entry member
  rw [named, Option.map_some, same]

/-- The symbols shown are the latest ones of their names. -/
theorem mem_shown : s ∈ m.shown ↔ m.kb.named? s.name = some s := by
  rw [shown, List.mem_filterMap]
  constructor
  · rintro ⟨⟨name, text⟩, -, named⟩
    rw [(named?_eq_some named).2]
    exact named
  · intro named
    obtain ⟨text, value⟩ := total s (named?_eq_some named).1
    exact ⟨(s.name, text), (mem_entries_iff formed total).mpr ⟨s, named, value⟩, named⟩

theorem prints_shown : m.Prints m.shown := by
  have ordered : (m.shown.map Symbol.name).Pairwise (· < ·) := by
    rw [map_name_shown formed total]
    exact ordered_entries m
  refine ⟨⟨m.entries, map_printed?_shown formed total, rfl⟩, ?_, ordered, fun s member => ?_, ?_⟩
  · refine List.subperm_of_subset ordered.nodup.of_map fun s member => ?_
    exact (named?_eq_some ((mem_shown formed total).mp member)).1
  · obtain ⟨t, named⟩ := exists_named? member
    obtain ⟨-, same⟩ := named?_eq_some named
    rw [← same] at named ⊢
    exact List.mem_map_of_mem ((mem_shown formed total).mpr named)
  · intro s member integer t shown same
    have inside : s ∈ m.kb.integers := by
      refine (List.mem_append.mp member).resolve_left fun boolean => ?_
      exact Bool.noConfusion (integer.symm.trans (formed.boolean_of_mem boolean))
    have named := (mem_shown formed total).mp shown
    rw [same] at named
    exact formed.integer_of_mem (integer_of_named? inside named)

end Shown

/-- The symbols printed are all the registered ones exactly if those have different names. -/
theorem Prints.perm_iff {shown : List Symbol} (prints : m.Prints shown) (distinct : m.kb.registered.Nodup) :
    shown.Perm m.kb.registered ↔ (m.kb.registered.map Symbol.name).Nodup := by
  have apart : (shown.map Symbol.name).Nodup := prints.ordered.nodup
  refine ⟨fun perm => (perm.map Symbol.name).nodup_iff.mp apart, fun names => ?_⟩
  refine (List.perm_ext_iff_of_nodup apart.of_map distinct).mpr fun s =>
    ⟨fun listed => prints.registered.subset listed, fun member => ?_⟩
  obtain ⟨t, listed, same⟩ := List.mem_map.mp (prints.names s member)
  exact List.inj_on_of_nodup_map names (prints.registered.subset listed) member same ▸ listed

end Model

namespace KnowledgeBase

variable {kb : KnowledgeBase} {allowed : Config → Prop} {added : List (List Expr)} {v : Valuation}

/-- In a model, every registered symbol has a value. -/
theorem Faithful.total (faithful : kb.Faithful added) (model : v.Models kb.clauses kb.atomCount) :
    (Model.mk kb v).Total := by
  obtain ⟨size, consistent⟩ := (models_iff faithful).mp model
  have fits := reading_fits faithful.toWellFormed consistent (Nat.le_of_eq size.symm)
  intro s member
  rcases mem_registered.mp member with ⟨a, atom⟩ | ⟨enc, encoded⟩
  · obtain ⟨b, value⟩ := (fits.boolean s).mpr ⟨a, atom⟩
    have known : (Model.mk kb v).boolean? s = some b := value
    exact ⟨toString b, by rw [Model.value?, faithful.boolean s a atom, if_pos rfl, known, Option.map_some]⟩
  · obtain ⟨n, value⟩ := (fits.integer s).mpr ⟨enc, encoded⟩
    have known : (Model.mk kb v).integer? s = some n := value
    have other : ¬ s.isBoolean = true := by simp [(faithful.encoded _ enc encoded).2]
    exact ⟨toString n, by rw [Model.value?, if_neg other, known, Option.map_some]⟩

/-- A model is printed by name: of the symbols that are registered, with their values and in order of their
names, one for each name. All of them are printed exactly if no two have one name, and so they are if they
are of one session. -/
theorem printed_by_name (reached : Reachable allowed kb) (model : v.Models kb.clauses kb.atomCount) :
    ∃ shown, (Model.mk kb v).Prints shown ∧
      (shown.Perm kb.registered ↔ (kb.registered.map Symbol.name).Nodup) ∧
      ∀ (session : Session) (n : Nat), session.Sound n → (∀ s ∈ kb.registered, s ∈ session.symbols) →
        shown.Perm kb.registered := by
  obtain ⟨added, faithful⟩ := reached.faithful
  have prints := Model.prints_shown faithful.toWellFormed (faithful.total model)
  have complete := prints.perm_iff reached.nodup_registered
  refine ⟨_, prints, complete, fun session n sound within => complete.mpr ?_⟩
  refine reached.nodup_registered.map_on fun s member t member' same => ?_
  exact List.inj_on_of_nodup_map sound.distinct (within s member) (within t member') same

/-- Of two symbols of one name, from different sessions and both true, one is printed. -/
theorem printed_by_name_clash :
    let p : Symbol := ⟨0, 0, "p", .boolean⟩
    let q : Symbol := ⟨1, 0, "p", .boolean⟩
    let x : Symbol := ⟨1, 1, "x", .integer (some ⟨2, 2⟩)⟩
    let kb := ((((KnowledgeBase.empty {}).add [.symbol p]).2.add [.symbol q]).2.declare x).2
    let v : Valuation := #[true, true, true, true]
    Reachable (fun _ => True) kb ∧ v.Models kb.clauses kb.atomCount ∧ kb.registered = [p, q, x] ∧
      (Model.mk kb v).boolean? p = some true ∧ (Model.mk kb v).boolean? q = some true ∧
      (Model.mk kb v).text = "\x7bp: true, x: 2\x7d" ∧
      ∃ shown, (Model.mk kb v).Prints shown ∧
        (shown.Perm kb.registered ↔ (kb.registered.map Symbol.name).Nodup) ∧
        ∀ (session : Session) (n : Nat), session.Sound n → (∀ s ∈ kb.registered, s ∈ session.symbols) →
          shown.Perm kb.registered := by
  intro p q x kb v
  have reached : Reachable (fun _ => True) kb := .declare (.add (.add (.empty trivial) _) _) _
  have model : v.Models kb.clauses kb.atomCount :=
    ⟨by decide +kernel, by decide +kernel⟩
  exact ⟨reached, model, by decide +kernel, by decide +kernel, by decide +kernel, by decide +kernel,
    printed_by_name reached model⟩

/-- However two symbols of one name with different values are printed, it is not with an entry for each. -/
theorem not_printed_apart :
    let p : Symbol := ⟨0, 0, "p", .boolean⟩
    let q : Symbol := ⟨1, 0, "p", .boolean⟩
    let kb := (((KnowledgeBase.empty {}).add [.symbol p, .symbol q]).2.add [.not (.symbol p)]).2
    let v : Valuation := #[true, false, true]
    Reachable (fun _ => True) kb ∧ v.Models kb.clauses kb.atomCount ∧ kb.registered = [p, q] ∧
      (Model.mk kb v).boolean? p = some false ∧ (Model.mk kb v).boolean? q = some true ∧
      ∀ shown, (Model.mk kb v).Prints shown → shown = [p] ∨ shown = [q] := by
  intro p q kb v
  have registered : kb.registered = [p, q] := by decide +kernel
  refine ⟨.add (.add (.empty trivial) _) _, ⟨by decide +kernel, by decide +kernel⟩, registered, by decide +kernel,
    by decide +kernel, fun shown prints => ?_⟩
  have inside : ∀ s ∈ shown, s = p ∨ s = q := fun s member => by
    simpa [registered] using prints.registered.subset member
  have apart : (shown.map Symbol.name).Nodup := prints.ordered.nodup
  rcases shown with _ | ⟨s, _ | ⟨t, rest⟩⟩
  · cases prints.names p (by simp [registered])
  · simpa using inside s (by simp)
  · have same : s.name = t.name := by
      rcases inside s (by simp) with rfl | rfl <;> rcases inside t (by simp) with rfl | rfl <;> rfl
    simp [same] at apart

end KnowledgeBase

end Clausal
