import Clausal.Proofs.Steps

/-!
Compilation keeps a knowledge base faithful. Every change that succeeds is taken
apart into steps of one item each, for an expression and then for what it is
part of; by induction on the expression it is compiled in the end, and nothing else
is but its parts.
-/

namespace Clausal

namespace Expr

/-- An expression and all that it is made of. -/
def parts : Expr → List Expr
  | symbol s => [symbol s]
  | constant value => [constant value]
  | not e => not e :: e.parts
  | sum left right => sum left right :: (left.parts ++ right.parts)
  | compare op left right => compare op left right :: (left.parts ++ right.parts)

theorem mem_parts_of_eq {p e : Expr} (same : p = e) : p ∈ e.parts := by
  subst same
  cases p <;> simp [parts]

theorem sizeOf_le_of_mem_parts {p e : Expr} (h : p ∈ e.parts) : sizeOf p ≤ sizeOf e := by
  induction e with
  | symbol s => rw [List.mem_singleton.mp h]
  | constant value => rw [List.mem_singleton.mp h]
  | not e ih =>
    rcases List.mem_cons.mp h with rfl | inner
    · exact Nat.le_refl _
    · rw [not.sizeOf_spec]
      exact Nat.le_trans (ih inner) (by omega)
  | sum left right ihl ihr =>
    rcases List.mem_cons.mp h with rfl | inner
    · exact Nat.le_refl _
    · rw [sum.sizeOf_spec]
      rcases List.mem_append.mp inner with first | second
      · exact Nat.le_trans (ihl first) (by omega)
      · exact Nat.le_trans (ihr second) (by omega)
  | compare op left right ihl ihr =>
    rcases List.mem_cons.mp h with rfl | inner
    · exact Nat.le_refl _
    · rw [compare.sizeOf_spec]
      rcases List.mem_append.mp inner with first | second
      · exact Nat.le_trans (ihl first) (by omega)
      · exact Nat.le_trans (ihr second) (by omega)

/-- An expression is not a part of what it is made of. -/
theorem not_mem_parts_of_sizeOf {e left right : Expr} (first : sizeOf left < sizeOf e)
    (second : sizeOf right < sizeOf e) : e ∉ left.parts ++ right.parts := by
  intro h
  rcases List.mem_append.mp h with inside | inside
  · exact Nat.not_le_of_lt first (sizeOf_le_of_mem_parts inside)
  · exact Nat.not_le_of_lt second (sizeOf_le_of_mem_parts inside)

theorem sum_not_mem_parts (left right : Expr) : sum left right ∉ left.parts ++ right.parts := by
  refine not_mem_parts_of_sizeOf ?_ ?_ <;> rw [sum.sizeOf_spec] <;> omega

theorem compare_not_mem_parts (op : Comparison) (left right : Expr) :
    compare op left right ∉ left.parts ++ right.parts := by
  refine not_mem_parts_of_sizeOf ?_ ?_ <;> rw [compare.sizeOf_spec] <;> omega

theorem mem_symbols_of_parts {s : Symbol} {e : Expr} (h : symbol s ∈ e.parts) : s ∈ e.symbols := by
  induction e with
  | symbol t => simpa [parts, symbols] using h
  | constant value => simp [parts] at h
  | not e ih => exact ih (by simpa [parts] using h)
  | sum left right ihl ihr =>
    simp only [parts, List.mem_cons, List.mem_append, reduceCtorEq, false_or] at h
    exact List.mem_append.mpr (h.imp ihl ihr)
  | compare op left right ihl ihr =>
    simp only [parts, List.mem_cons, List.mem_append, reduceCtorEq, false_or] at h
    exact List.mem_append.mpr (h.imp ihl ihr)

end Expr

/-- The expression that an item is about. -/
def Item.expr : Item → Expr
  | boolean s => .symbol s
  | integer e => e
  | comparison e => e

namespace KnowledgeBase

variable {kb more most : KnowledgeBase} {added : List (List Expr)} {scope : Expr → Prop} {e : Expr}
  {enc : Encoding} {os : List Origin} {cs : List Clause} {v : Valuation}

/-- The domain that an integer symbol gets if it has none yet. -/
def resolve? (kb : KnowledgeBase) (s : Symbol) : Option Domain :=
  s.kind.domain? <|> kb.config.defaultDomain

/-- A compilation: the second knowledge base is faithful and has all that the first one has, and
nothing else was compiled but what is in the scope. -/
structure Compiles (kb more : KnowledgeBase) (added : List (List Expr)) (scope : Expr → Prop) : Prop where
  faithful : more.Faithful added
  retains : kb.Retains more
  config : more.config = kb.config
  booleans : ∀ s a, kb.booleans.get? s = none → more.booleans.get? s = some a → scope (.symbol s)
  encodings : ∀ e enc, kb.encodings.get? e = none → more.encodings.get? e = some enc → scope e
  comparisons : ∀ e a, kb.comparisons.get? e = none → more.comparisons.get? e = some a → scope e
  symbols : ∀ s enc, kb.encodings.get? (.symbol s) = none → more.encodings.get? (.symbol s) = some enc →
    kb.resolve? s = some enc.domain
  steps : kb.Steps more

namespace Compiles

theorem refl (faithful : kb.Faithful added) : kb.Compiles kb added scope := by
  refine ⟨faithful, .refl kb, rfl, ?_, ?_, ?_, ?_, .refl⟩
  · exact fun s a new found => by simp [new] at found
  · exact fun e enc new found => by simp [new] at found
  · exact fun e a new found => by simp [new] at found
  · exact fun s enc new found => by simp [new] at found

theorem trans (first : kb.Compiles more added scope) (second : more.Compiles most added scope) :
    kb.Compiles most added scope := by
  refine ⟨second.faithful, first.retains.trans second.retains, second.config.trans first.config,
    ?_, ?_, ?_, ?_, first.steps.trans second.steps⟩
  · intro s a new found
    cases between : more.booleans.get? s with
    | none => exact second.booleans s a between found
    | some b => exact first.booleans s b new between
  · intro e enc new found
    cases between : more.encodings.get? e with
    | none => exact second.encodings e enc between found
    | some b => exact first.encodings e b new between
  · intro e a new found
    cases between : more.comparisons.get? e with
    | none => exact second.comparisons e a between found
    | some b => exact first.comparisons e b new between
  · intro s enc new found
    cases between : more.encodings.get? (.symbol s) with
    | none =>
      rw [resolve?, ← first.config]
      exact second.symbols s enc between found
    | some b =>
      rw [second.retains.encodings _ b between, Option.some.injEq] at found
      exact found ▸ first.symbols s b new between

theorem mono {wide : Expr → Prop} (h : kb.Compiles more added scope) (le : ∀ e, scope e → wide e) :
    kb.Compiles more added wide :=
  ⟨h.faithful, h.retains, h.config, fun s a new found => le _ (h.booleans s a new found),
    fun e enc new found => le e (h.encodings e enc new found),
    fun e a new found => le e (h.comparisons e a new found), h.symbols, h.steps⟩

/-- What is out of the scope is not compiled. -/
theorem encodings_none (h : kb.Compiles more added scope) (new : kb.encodings.get? e = none)
    (out : ¬ scope e) : more.encodings.get? e = none := by
  cases found : more.encodings.get? e with
  | none => rfl
  | some enc => exact absurd (h.encodings e enc new found) out

theorem comparisons_none (h : kb.Compiles more added scope) (new : kb.comparisons.get? e = none)
    (out : ¬ scope e) : more.comparisons.get? e = none := by
  cases found : more.comparisons.get? e with
  | none => rfl
  | some a => exact absurd (h.comparisons e a new found) out

end Compiles

/-- One item more is a compilation. -/
theorem Adds.compiles {item : Item} {count : Nat} (adds : kb.Adds more item count cs)
    (step : kb.Step more) (faithful : more.Faithful added) (symbols : ∀ s enc, item = .integer (.symbol s) →
      more.encodings.get? (.symbol s) = some enc → kb.resolve? s = some enc.domain) :
    kb.Compiles more added (· = item.expr) := by
  have only : ∀ other, kb.literals? other = none → more.literals? other ≠ none → other = item := by
    intro other unknown known
    by_contra apart
    exact known ((adds.others other apart).trans unknown)
  refine ⟨faithful, adds.retains, adds.config, fun s a unknown known => ?_, fun e enc unknown known => ?_,
    fun e a unknown known => ?_, fun s enc unknown known => ?_, .single step⟩
  · rw [← only (.boolean s) (by simp [literals?, unknown]) (by simp [literals?, known])]
    rfl
  · rw [← only (.integer e) (by simp [literals?, unknown]) (by simp [literals?, known])]
    rfl
  · rw [← only (.comparison e) (by simp [literals?, unknown]) (by simp [literals?, known])]
    rfl
  · have same := only (.integer (.symbol s)) (by simp [literals?, unknown]) (by simp [literals?, known])
    exact symbols s enc same.symm known

/-- The indicators of an expression are literals of the knowledge base. -/
theorem WellFormed.covers (formed : kb.WellFormed) (large : kb.atomCount ≤ v.size)
    (found : kb.encodings.get? e = some enc) : v.Covers enc.indicators := by
  intro l member
  obtain ⟨a, inside, rfl⟩ := formed.positive (.integer e) enc.indicators
    (by simp [literals?, found]) l member
  exact Nat.lt_of_lt_of_le inside large

/-- An integer expression more, which is encoded from then on. -/
theorem Faithful.compiles_encoding (faithful : kb.Faithful added) (new : kb.encodings.get? e = none)
    (step : kb.Step (kb.withEncoding e enc os cs)) (indicates : kb.Indicates e enc os) (encodes : kb.Encodes e enc)
    (resolved : ∀ s, e = .symbol s → kb.resolve? s = some enc.domain)
    (below : ∀ c ∈ cs, ∀ l ∈ c, l.atom < kb.atomCount + os.length)
    (express : ∀ v : Valuation, kb.atomCount + os.length ≤ v.size → kb.Consistent added v →
      (v.All cs ↔ (∃ n, enc.Shows v n) ∧ ∀ left right, e = .sum left right → kb.SumsIn v left right enc)) :
    kb.Compiles (kb.withEncoding e enc os cs) added (· = e) ∧
      (kb.withEncoding e enc os cs).encodings.get? e = some enc := by
  have own : (kb.withEncoding e enc os cs).encodings.get? e = some enc := by
    rw [get?_withEncoding, if_pos rfl]
  have after := faithful.withEncoding new indicates encodes below express
  refine ⟨(adds_encoding new indicates encodes below).compiles step after ?_, own⟩
  rintro s other ⟨⟩ found
  rw [own, Option.some.injEq] at found
  exact found ▸ resolved s rfl

theorem clauses_storeAll (same : kb.clauses = more.clauses) (cs : List Clause) :
    (kb.storeAll cs).clauses = (more.storeAll cs).clauses := by
  have store : ∀ {kb more : KnowledgeBase} (c : Clause), kb.clauses = more.clauses →
      (kb.store c).2.clauses = (more.store c).2.clauses := by
    intro kb more c same
    unfold store
    split
    · exact same
    · split
      · exact same
      · exact congrArg (Array.push · _) same
  induction cs generalizing kb more with
  | nil => exact same
  | cons c cs ih => exact ih (store c same)

theorem storeAll_append (kb : KnowledgeBase) (cs ds : List Clause) :
    kb.storeAll (cs ++ ds) = (kb.storeAll cs).storeAll ds := List.foldl_append

end KnowledgeBase

namespace Build

variable {kb more : KnowledgeBase} {added : List (List Expr)} {o : Origin} {origin : Nat → Origin}
  {d : Domain} {e left right : Expr} {enc l r : Encoding} {s : Symbol} {a : Atom}

theorem freshAtom_yields (h : (freshAtom o).Yields kb a more) :
    a = kb.atomCount ∧ more = { kb with origins := kb.origins.push o } ∧ kb.Room 1 := by
  simp only [freshAtom, yields_bind, yields_get] at h
  obtain ⟨old, now, ⟨rfl, rfl⟩, rest⟩ := h
  split at rest
  · next room =>
    simp only [yields_bind, yields_set, yields_pure] at rest
    obtain ⟨-, last, rfl, rfl, rfl⟩ := rest
    exact ⟨rfl, rfl, .inr room⟩
  · exact absurd rest yields_throw

theorem freshAtoms_yields {count : Nat} {ls : List Literal}
    (h : (freshAtoms count origin).Yields kb ls more) : ls = freshLiterals kb.atomCount count ∧
      more = { kb with origins := kb.origins ++ (List.range count).map origin } ∧ kb.Room count := by
  simp only [freshAtoms, yields_bind, yields_get] at h
  obtain ⟨old, now, ⟨rfl, rfl⟩, rest⟩ := h
  split at rest
  · next room =>
    simp only [yields_bind, yields_set, yields_pure] at rest
    obtain ⟨-, last, rfl, rfl, rfl⟩ := rest
    exact ⟨rfl, rfl, room⟩
  · exact absurd rest yields_throw

theorem define_yields {cs : List Clause} {u : Unit} (h : (define cs).Yields kb u more) :
    more = { kb with clauses := (kb.storeAll cs).clauses } := by
  rw [define, yields_modify] at h
  rw [h]
  exact kb.storeAll_frame cs

theorem checkDomain_yields {u : Unit} (h : (checkDomain d).Yields kb u more) :
    more = kb ∧ d.size ≤ kb.config.domainLimit := by
  simp only [checkDomain, yields_bind, yields_get] at h
  obtain ⟨old, now, ⟨rfl, rfl⟩, rest⟩ := h
  split at rest
  · next small => exact ⟨(yields_pure.mp rest).2, small⟩
  · exact absurd rest yields_throw

theorem encodeDomain_yields (h : (encodeDomain d origin).Yields kb enc more) :
    d.size ≤ kb.config.domainLimit ∧ kb.Room d.count ∧ enc = kb.freshEncoding d ∧
      more = { kb with
        origins := kb.origins ++ (List.range d.count).map origin
        clauses := (kb.storeAll (exactlyOne enc.indicators)).clauses } := by
  simp only [encodeDomain, yields_bind, yields_pure] at h
  obtain ⟨_, kb₁, checked, ls, kb₂, fresh, _, kb₃, defined, rfl, rfl⟩ := h
  obtain ⟨rfl, small⟩ := checkDomain_yields checked
  obtain ⟨rfl, rfl, room⟩ := freshAtoms_yields fresh
  rw [define_yields defined]
  refine ⟨small, room, rfl, congrArg _ ?_⟩
  apply KnowledgeBase.clauses_storeAll
  rfl

theorem domainOf_yields (h : (domainOf s).Yields kb d more) :
    more = kb ∧ s.isBoolean = false ∧ kb.resolve? s = some d := by
  unfold domainOf at h
  split at h
  · exact absurd h yields_throw
  · next declared kind =>
    simp only [yields_bind, yields_get] at h
    obtain ⟨old, now, ⟨rfl, rfl⟩, rest⟩ := h
    split at rest
    · next found =>
      obtain ⟨rfl, rfl⟩ := yields_pure.mp rest
      refine ⟨rfl, ?_, ?_⟩
      · rw [Symbol.isBoolean, kind]
        rfl
      · rw [KnowledgeBase.resolve?, kind]
        exact found
    · exact absurd rest yields_throw

theorem encodeSum_yields (h : (encodeSum l r).Yields kb enc more) :
    ∃ d, l.domain.sum? r.domain = some d ∧ d.size ≤ kb.config.domainLimit ∧ kb.Room d.count ∧
      enc = kb.freshEncoding d ∧ more = { kb with
        origins := kb.origins ++ (List.range d.count).map fun _ => Origin.auxiliary
        clauses := (kb.storeAll (exactlyOne enc.indicators ++ sumClauses l r enc)).clauses } := by
  unfold encodeSum at h
  split at h
  · exact absurd h yields_throw
  · next d sum =>
    simp only [yields_bind, yields_pure] at h
    obtain ⟨enc', kb₁, made, _, kb₂, defined, rfl, rfl⟩ := h
    obtain ⟨small, room, rfl, rfl⟩ := encodeDomain_yields made
    refine ⟨d, sum, small, room, rfl, ?_⟩
    rw [define_yields defined, KnowledgeBase.storeAll_append]
    refine congrArg _ ?_
    apply KnowledgeBase.clauses_storeAll
    rfl

/-- An expression is encoded once. -/
theorem cachedEncoding_yields {make : Build Encoding} (h : (cachedEncoding e make).Yields kb enc more) :
    kb.encodings.get? e = some enc ∧ more = kb ∨
      kb.encodings.get? e = none ∧ ∃ mid, make.Yields kb enc mid ∧
        more = { mid with encodings := mid.encodings.insert e enc } := by
  simp only [cachedEncoding, yields_bind, yields_get] at h
  obtain ⟨old, now, ⟨rfl, rfl⟩, rest⟩ := h
  split at rest
  · next found =>
    obtain ⟨rfl, rfl⟩ := yields_pure.mp rest
    exact .inl ⟨found, rfl⟩
  · next unknown =>
    simp only [yields_bind, yields_modify, yields_pure] at rest
    obtain ⟨enc', mid, made, _, last, rfl, rfl, rfl⟩ := rest
    exact .inr ⟨unknown, mid, made, rfl⟩

/-- A boolean symbol gets an atom. -/
theorem booleanAtom_spec (faithful : kb.Faithful added) (boolean : s.isBoolean = true)
    (h : (booleanAtom s).Yields kb a more) :
    kb.Compiles more added (· = .symbol s) ∧ more.booleans.get? s = some a := by
  simp only [booleanAtom, yields_bind, yields_get] at h
  obtain ⟨old, now, ⟨rfl, rfl⟩, rest⟩ := h
  split at rest
  · next found =>
    obtain ⟨rfl, rfl⟩ := yields_pure.mp rest
    exact ⟨.refl faithful, found⟩
  · next new =>
    simp only [yields_bind, yields_modify, yields_pure] at rest
    obtain ⟨b, mid, made, _, last, rfl, rfl, rfl⟩ := rest
    obtain ⟨rfl, rfl, room⟩ := freshAtom_yields made
    have adds := KnowledgeBase.adds_boolean (.boolean s) new boolean
    refine ⟨adds.compiles (.boolean new boolean room) (faithful.withBoolean (.boolean s) new boolean) (by simp), ?_⟩
    exact (KnowledgeBase.get?_withBoolean s).trans (if_pos rfl)

/-- A symbol is encoded over its domain. -/
theorem encodeSymbol_spec {mid : KnowledgeBase} (faithful : kb.Faithful added)
    (new : kb.encodings.get? (.symbol s) = none) (made : (encodeSymbol s).Yields kb enc mid)
    (h : more = { mid with encodings := mid.encodings.insert (.symbol s) enc }) :
    kb.Compiles more added (· = .symbol s) ∧ more.encodings.get? (.symbol s) = some enc := by
  simp only [encodeSymbol, yields_bind] at made
  obtain ⟨d, kb₁, known, encoded⟩ := made
  obtain ⟨rfl, integer, domain⟩ := domainOf_yields known
  obtain ⟨small, room, rfl, rfl⟩ := encodeDomain_yields encoded
  have length : ((List.range d.count).map fun i => Origin.indicator s (d.value i)).length = d.count := by
    simp
  rw [h]
  refine faithful.compiles_encoding new (.symbol new integer small room)
    (KnowledgeBase.indicates_freshEncoding length) ⟨KnowledgeBase.full_freshEncoding, integer⟩ ?_ ?_
    fun v large _ => ?_
  · rintro _ ⟨⟩
    exact domain
  · exact atoms_exactlyOne (by rw [length]; exact KnowledgeBase.below_freshEncoding)
  · have covers : v.Covers (kb₁.freshEncoding d).indicators := fun l member =>
      Nat.lt_of_lt_of_le (KnowledgeBase.below_freshEncoding l member) (length ▸ large)
    rw [Encoding.all_exactlyOne KnowledgeBase.full_freshEncoding covers]
    simp

/-- A constant shows itself, whatever else holds. -/
theorem encodeConstant_spec (faithful : kb.Faithful added) {value : Int}
    (new : kb.encodings.get? (.constant value) = none)
    (h : more = { kb with
      encodings := kb.encodings.insert (.constant value) (encodeConstant value) }) :
    kb.Compiles more added (· = .constant value) ∧
      more.encodings.get? (.constant value) = some (encodeConstant value) := by
  have same : more = kb.withEncoding (.constant value) (encodeConstant value) [] [] := by
    simp [h, KnowledgeBase.withEncoding, KnowledgeBase.storeAll]
  have full : (encodeConstant value).Full := by
    simp [Encoding.Full, encodeConstant, Domain.singleton, Domain.count]
  rw [same]
  refine faithful.compiles_encoding new (.constant new) (.inr ⟨rfl, value, rfl, rfl⟩) ⟨full, rfl⟩ (by simp)
    (by simp) fun v _ consistent => iff_of_true (by simp [Valuation.All]) ⟨⟨value, ?_, ?_⟩, by simp⟩
  · simp [encodeConstant, Domain.singleton, Domain.contains]
  · intro i l found
    simp only [encodeConstant, List.getElem?_singleton] at found
    split at found
    · next first =>
      cases found
      exact iff_of_true consistent.top (by simp [encodeConstant, Domain.singleton, Domain.value, first])
    · cases found

/-- A sum shows the sum of what both sides show. -/
theorem encodeSum_spec {mid : KnowledgeBase} (faithful : kb.Faithful added)
    (first : kb.encodings.get? left = some l) (second : kb.encodings.get? right = some r)
    (new : kb.encodings.get? (.sum left right) = none) (made : (encodeSum l r).Yields kb enc mid)
    (h : more = { mid with encodings := mid.encodings.insert (.sum left right) enc }) :
    kb.Compiles more added (· = .sum left right) ∧
      more.encodings.get? (.sum left right) = some enc := by
  obtain ⟨d, domain, small, room, same, rfl⟩ := encodeSum_yields made
  have full : enc.Full := same ▸ KnowledgeBase.full_freshEncoding
  have fullLeft := (faithful.encoded left l first).1
  have fullRight := (faithful.encoded right r second).1
  have below : ∀ l ∈ enc.indicators, l.atom < kb.atomCount + d.count :=
    same ▸ KnowledgeBase.below_freshEncoding
  have total : l.domain.sum? r.domain = some enc.domain := by
    rw [same]
    exact domain
  rw [h]
  have length : ((List.range d.count).map fun _ => Origin.auxiliary).length = d.count := by simp
  refine faithful.compiles_encoding new (same ▸ .sum new first second domain small room)
    (same ▸ KnowledgeBase.indicates_freshEncoding length) ⟨full, l, r, first, second, total⟩ (by simp) ?_
    fun v large consistent => ?_
  · rw [length, same]
    exact faithful.below_sum first second
  · rw [length] at large
    have older : kb.atomCount ≤ v.size := Nat.le_trans (Nat.le_add_right _ _) large
    have covers : v.Covers enc.indicators := fun l member => Nat.lt_of_lt_of_le (below l member) large
    have coversLeft := faithful.covers older first
    have coversRight := faithful.covers older second
    rw [Valuation.all_append, Encoding.all_exactlyOne full covers]
    constructor
    · rintro ⟨⟨n, shown⟩, rule⟩
      obtain ⟨a, showsLeft⟩ := consistent.shown left l first
      obtain ⟨b, showsRight⟩ := consistent.shown right r second
      obtain rfl := (Encoding.all_sumClauses fullLeft fullRight full coversLeft coversRight covers total
        showsLeft showsRight shown).mp rule
      refine ⟨⟨_, shown⟩, ?_⟩
      rintro _ _ ⟨⟩
      exact ⟨a, b, ⟨l, first, showsLeft⟩, ⟨r, second, showsRight⟩, shown⟩
    · rintro ⟨shown, rule⟩
      obtain ⟨a, b, ⟨l', known, showsLeft⟩, ⟨r', known', showsRight⟩, sum⟩ := rule left right rfl
      rw [first, Option.some.injEq] at known
      rw [second, Option.some.injEq] at known'
      subst known known'
      exact ⟨shown, (Encoding.all_sumClauses fullLeft fullRight full coversLeft coversRight covers total
        showsLeft showsRight sum).mpr rfl⟩

/-- By induction an integer expression is encoded, and nothing else is but its parts. -/
theorem encode_spec (faithful : kb.Faithful added) (h : (encode e).Yields kb enc more) :
    kb.Compiles more added (· ∈ e.parts) ∧ more.encodings.get? e = some enc := by
  induction e generalizing kb enc more with
  | symbol s =>
    rcases cachedEncoding_yields h with ⟨found, rfl⟩ | ⟨new, mid, made, equal⟩
    · exact ⟨.refl faithful, found⟩
    · obtain ⟨compiles, found⟩ := encodeSymbol_spec faithful new made equal
      exact ⟨compiles.mono fun _ => Expr.mem_parts_of_eq, found⟩
  | constant value =>
    rcases cachedEncoding_yields h with ⟨found, rfl⟩ | ⟨new, mid, made, equal⟩
    · exact ⟨.refl faithful, found⟩
    · obtain ⟨rfl, rfl⟩ := yields_pure.mp made
      obtain ⟨compiles, found⟩ := encodeConstant_spec faithful new equal
      exact ⟨compiles.mono fun _ => Expr.mem_parts_of_eq, found⟩
  | sum left right ihl ihr =>
    rcases cachedEncoding_yields h with ⟨found, rfl⟩ | ⟨new, mid, made, equal⟩
    · exact ⟨.refl faithful, found⟩
    · simp only [yields_bind] at made
      obtain ⟨l, kb₁, makesLeft, r, kb₂, makesRight, made⟩ := made
      obtain ⟨compilesLeft, foundLeft⟩ := ihl faithful makesLeft
      obtain ⟨compilesRight, foundRight⟩ := ihr compilesLeft.faithful makesRight
      have sides := (compilesLeft.mono fun p part => List.mem_append_left right.parts part).trans
        (compilesRight.mono fun p part => List.mem_append_right left.parts part)
      have fresh := sides.encodings_none new (Expr.sum_not_mem_parts left right)
      obtain ⟨compiles, found⟩ := encodeSum_spec compilesRight.faithful
        (compilesRight.retains.encodings left l foundLeft) foundRight fresh made equal
      refine ⟨(sides.mono fun p part => List.mem_cons_of_mem _ part).trans ?_, found⟩
      exact compiles.mono fun _ => Expr.mem_parts_of_eq
  | not e _ => exact absurd h yields_throw
  | compare op left right _ _ => exact absurd h yields_throw

/-- The atom of a comparison says whether it holds of what both sides show. -/
theorem compiles_comparison {op : Comparison} (faithful : kb.Faithful added)
    (new : kb.comparisons.get? (.compare op left right) = none)
    (first : kb.encodings.get? left = some l) (second : kb.encodings.get? right = some r)
    (room : kb.Room 1) :
    kb.Compiles (kb.withComparison (.compare op left right) .auxiliary
      (comparisonClauses op l r (.positive kb.atomCount))) added (· = .compare op left right) := by
  have below := faithful.below_comparison op first second
  have after := faithful.withComparison .auxiliary new first second below fun v large consistent => by
    have older : kb.atomCount ≤ v.size := Nat.le_of_succ_le large
    have agrees : ∀ {m n}, l.Shows v m → r.Shows v n →
        (v.All (comparisonClauses op l r (.positive kb.atomCount)) ↔
          v.holds (.positive kb.atomCount) = op.holds m n) :=
      Encoding.all_comparisonClauses (faithful.encoded left l first).1 (faithful.encoded right r second).1
        (faithful.covers older first) (faithful.covers older second) large
    constructor
    · intro rule
      obtain ⟨m, showsLeft⟩ := consistent.shown left l first
      obtain ⟨n, showsRight⟩ := consistent.shown right r second
      exact ⟨m, n, ⟨l, first, showsLeft⟩, ⟨r, second, showsRight⟩, (agrees showsLeft showsRight).mp rule⟩
    · rintro ⟨m, n, ⟨l', known, showsLeft⟩, ⟨r', known', showsRight⟩, rule⟩
      rw [first, Option.some.injEq] at known
      rw [second, Option.some.injEq] at known'
      subst known known'
      exact (agrees showsLeft showsRight).mpr rule
  have adds := KnowledgeBase.adds_comparison .auxiliary new ⟨op, left, right, l, r, rfl, first, second⟩ below
  exact adds.compiles (.comparison new first second room) after (by simp)

/-- A new atom with the clauses of a comparison, once it is in the table. -/
theorem comparison_yields {op : Comparison} {kb₁ kb₂ : KnowledgeBase} {u : Unit}
    (made : (freshAtom .auxiliary).Yields kb a kb₁)
    (defined : (define (comparisonClauses op l r (.positive a))).Yields kb₁ u kb₂) :
    a = kb.atomCount ∧ { kb₂ with comparisons := kb₂.comparisons.insert (.compare op left right) a } =
      kb.withComparison (.compare op left right) .auxiliary
        (comparisonClauses op l r (.positive kb.atomCount)) ∧ kb.Room 1 := by
  obtain ⟨rfl, rfl, room⟩ := freshAtom_yields made
  refine ⟨rfl, ?_, room⟩
  rw [define_yields defined]
  refine congrArg _ ?_
  apply KnowledgeBase.clauses_storeAll
  rfl

/-- A comparison is compiled, its sides first. -/
theorem comparisonAtom_spec {op : Comparison} (faithful : kb.Faithful added)
    (h : (comparisonAtom op left right).Yields kb a more) :
    kb.Compiles more added (· ∈ (Expr.compare op left right).parts) ∧
      more.comparisons.get? (.compare op left right) = some a := by
  simp only [comparisonAtom, yields_bind, yields_get] at h
  obtain ⟨old, now, ⟨rfl, rfl⟩, rest⟩ := h
  split at rest
  · next found =>
    obtain ⟨rfl, rfl⟩ := yields_pure.mp rest
    exact ⟨.refl faithful, found⟩
  · next new =>
    simp only [yields_bind, yields_modify, yields_pure] at rest
    obtain ⟨l, kb₁, makesLeft, r, kb₂, makesRight, b, kb₃, made, _, kb₄, defined, _, last, rfl, rfl, rfl⟩ := rest
    obtain ⟨compilesLeft, foundLeft⟩ := encode_spec faithful makesLeft
    obtain ⟨compilesRight, second⟩ := encode_spec compilesLeft.faithful makesRight
    have first := compilesRight.retains.encodings left l foundLeft
    have sides := (compilesLeft.mono fun p part => List.mem_append_left right.parts part).trans
      (compilesRight.mono fun p part => List.mem_append_right left.parts part)
    have fresh := sides.comparisons_none new (Expr.compare_not_mem_parts op left right)
    obtain ⟨rfl, same, room⟩ := comparison_yields made defined
    have compiles := compiles_comparison compilesRight.faithful fresh first second room
    rw [same]
    refine ⟨(sides.mono fun p part => List.mem_cons_of_mem _ part).trans ?_, ?_⟩
    · exact compiles.mono fun _ => Expr.mem_parts_of_eq
    · exact (KnowledgeBase.get?_withComparison _).trans (if_pos rfl)

/-- By induction a boolean expression gets a literal, and nothing is compiled but its parts. -/
theorem literalOf_spec {x : Literal} (faithful : kb.Faithful added) (h : (literalOf e).Yields kb x more) :
    kb.Compiles more added (· ∈ e.parts) ∧ more.literal? e = some x := by
  induction e generalizing x with
  | symbol s =>
    unfold literalOf at h
    split at h
    · next boolean =>
      simp only [yields_bind, yields_pure] at h
      obtain ⟨a, mid, made, rfl, rfl⟩ := h
      obtain ⟨compiles, found⟩ := booleanAtom_spec faithful boolean made
      exact ⟨compiles.mono fun _ => Expr.mem_parts_of_eq, by simp [KnowledgeBase.literal?, found]⟩
    · exact absurd h yields_throw
  | not e ih =>
    simp only [literalOf, yields_bind, yields_pure] at h
    obtain ⟨y, mid, made, rfl, rfl⟩ := h
    obtain ⟨compiles, found⟩ := ih made
    exact ⟨compiles.mono fun p part => List.mem_cons_of_mem _ part, by simp [KnowledgeBase.literal?, found]⟩
  | compare op left right _ _ =>
    simp only [literalOf, yields_bind, yields_pure] at h
    obtain ⟨a, mid, made, rfl, rfl⟩ := h
    obtain ⟨compiles, found⟩ := comparisonAtom_spec faithful made
    exact ⟨compiles, by simp [KnowledgeBase.literal?, found]⟩
  | constant value => exact absurd h yields_throw
  | sum left right _ _ => exact absurd h yields_throw

/-- The literals of a clause, one for each disjunct. -/
theorem mapM_literalOf_spec {disjuncts : List Expr} {c : Clause} (faithful : kb.Faithful added)
    (h : (disjuncts.mapM literalOf).Yields kb c more) :
    kb.Compiles more added (fun p => ∃ e ∈ disjuncts, p ∈ e.parts) ∧
      disjuncts.map more.literal? = c.map some := by
  induction disjuncts generalizing kb c with
  | nil =>
    rw [List.mapM_nil] at h
    obtain ⟨rfl, rfl⟩ := yields_pure.mp h
    exact ⟨.refl faithful, rfl⟩
  | cons e disjuncts ih =>
    rw [List.mapM_cons] at h
    simp only [yields_bind, yields_pure] at h
    obtain ⟨x, kb₁, made, c', kb₂, rest, rfl, rfl⟩ := h
    obtain ⟨compiles, found⟩ := literalOf_spec faithful made
    obtain ⟨later, all⟩ := ih compiles.faithful rest
    refine ⟨.trans (compiles.mono fun p part => ⟨e, List.mem_cons_self, part⟩) ?_, ?_⟩
    · refine later.mono ?_
      rintro p ⟨f, member, part⟩
      exact ⟨f, List.mem_cons_of_mem e member, part⟩
    · rw [List.map_cons, List.map_cons, later.retains.literal? found, all]

theorem clauseOf_spec {disjuncts : List Expr} {c : Clause} (faithful : kb.Faithful added)
    (h : (clauseOf disjuncts).Yields kb c more) :
    kb.Compiles more added (fun p => ∃ e ∈ disjuncts, p ∈ e.parts) ∧
      disjuncts.map more.literal? = c.map some := by
  simp only [clauseOf, yields_bind] at h
  obtain ⟨_, kb₁, checked, rest⟩ := h
  have same : kb₁ = kb := (congrArg Prod.snd checked).symm
  exact mapM_literalOf_spec faithful (same ▸ rest)

end Build

end Clausal
