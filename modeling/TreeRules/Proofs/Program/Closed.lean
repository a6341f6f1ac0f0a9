import TreeRules.Program.Basic
import TreeRules.Proofs.Matcher.Stores

/-! Closed tables: every entry stands at the place that is its number, and whatever it refers to by
a number is there, entries of its own table before it. -/
namespace TreeRules

/-- Every entry is numbered by its place. -/
def ByPlace {α : Type} (id : α → Nat) (entries : List α) : Prop :=
  ∀ place x, entries[place]? = some x → id x = place

section ByPlace

variable {α : Type} {id : α → Nat} {x : α} {xs : List α}

lemma byPlace_nil : ByPlace id [] := by
  intro place x h
  cases h

lemma byPlace_append_singleton :
    ByPlace id (xs ++ [x]) ↔ ByPlace id xs ∧ id x = xs.length := by
  constructor
  · intro h
    refine ⟨fun place y hy => ?_,h xs.length x (by simp)⟩
    apply h place y
    rw [List.getElem?_append_left (List.getElem?_eq_some_iff.mp hy).1, hy]
  · rintro ⟨h,hx⟩ place y hy
    rcases Nat.lt_or_ge place xs.length with hlt | hge
    · apply h
      rwa [List.getElem?_append_left hlt] at hy
    · rw [List.getElem?_append_right hge, List.getElem?_singleton] at hy
      split_ifs at hy with h0
      cases hy
      omega

/-- The newest entry of a table that lists the newest first has the highest number. -/
lemma byPlace_reverse_cons :
    ByPlace id (x :: xs).reverse ↔ ByPlace id xs.reverse ∧ id x = xs.length := by
  rw [List.reverse_cons, byPlace_append_singleton, List.length_reverse]

/-- A newer entry does not have the number of an older one. -/
lemma ByPlace.id_ne {newer older : List α} (h : ByPlace id (x :: (newer ++ older)).reverse)
    {number : Nat} (hn : number < older.length) : id x ≠ number := by
  rw [(byPlace_reverse_cons.mp h).2, List.length_append]
  omega

/-- An entry splits its table into the entries that are newer and those that are older. -/
lemma exists_older {number : Nat} (h : xs.reverse[number]? = some x) :
    ∃ newer older, xs = newer ++ x :: older ∧ older.length = number := by
  obtain ⟨hlt,hx⟩ := List.getElem?_eq_some_iff.mp h
  refine ⟨(xs.reverse.drop (number + 1)).reverse,(xs.reverse.take number).reverse,?_,?_⟩
  · have hsplit := List.take_append_drop number xs.reverse
    rw [List.drop_eq_getElem_cons hlt, hx] at hsplit
    have hrev := congrArg List.reverse hsplit
    rw [List.reverse_append, List.reverse_cons, List.reverse_reverse, List.append_assoc] at hrev
    exact hrev.symm
  · rw [List.length_reverse, List.length_take]
    omega

end ByPlace

namespace Matcher

lemma numbered_iff_byPlace {table : List Matcher} :
    Numbered table ↔ ByPlace Matcher.id table.reverse := by
  induction table with
  | nil => exact iff_of_true trivial byPlace_nil
  | cons m older ih => rw [byPlace_reverse_cons, Numbered, ih, and_comm]

/-- The symbols of a type test. -/
def TypeTest.symbols (t : TypeTest) : List Symbol := t.name :: t.accepts

def ChildCondition.symbols : ChildCondition → List Symbol
  | child _ _ => []
  | remaining _ types => types.symbols

def Condition.symbols : Condition → List Symbol
  | type test => test.symbols
  | children c => c.symbols
  | _ => []

/-- The symbols that a matcher reads. -/
def symbols (m : Matcher) : List Symbol :=
  m.conditions.flatMap Condition.symbols ++ m.procedure.flatMap ChildCondition.symbols

end Matcher

/-- Whatever an entry of a language's tables refers to is there. -/
structure Language.Closed (u : SymbolTable) (l : Language) : Prop where
  matcherIds : ByPlace Matcher.id l.matcherList
  builderIds : ByPlace Builder.id l.builderList
  ruleIds : ByPlace CompiledRule.id l.rules
  keys : (l.matchers.map Matcher.key).Nodup
  dependencies : ∀ m ∈ l.matcherList, ∀ id ∈ m.dependencies, id < m.id
  matcherSymbols : ∀ m ∈ l.matcherList, ∀ x ∈ m.symbols, x < u.size
  sources : ∀ b ∈ l.builderList, ∀ id, .builder id ∈ b.children → id < b.id
  builderSymbols : ∀ b ∈ l.builderList, b.type < u.size
  checkers : ∀ r ∈ l.rules, ∀ c ∈ r.strategy.checkers, c.matcher < l.matcherList.length
  results : ∀ r ∈ l.rules, ∀ id, r.result = .subtree id → id < l.builderList.length

namespace Language.Closed

variable {u : SymbolTable} {l : Language}

/-- A language stays closed while the symbol table grows. -/
lemma mono (h : l.Closed u) {v : SymbolTable} (hv : u.names <+: v.names) : l.Closed v :=
  { h with
    matcherSymbols := fun m hm x hx => Nat.lt_of_lt_of_le (h.matcherSymbols m hm x hx) hv.length_le
    builderSymbols := fun b hb => Nat.lt_of_lt_of_le (h.builderSymbols b hb) hv.length_le }

end Language.Closed

end TreeRules
