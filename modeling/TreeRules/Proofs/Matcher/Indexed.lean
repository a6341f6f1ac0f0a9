import TreeRules.Proofs.Program.Closed

/-! Running matchers by number. Every reference is looked up in the whole table, and nothing but the
numbers themselves keeps a run from going round in circles: it may find no entry, or not come to an
end. On closed tables it does neither, and gives what the matchers give. -/
namespace TreeRules.Indexed

open Matcher (Id Condition ChildCondition Extraction)

/-- Why a run by numbers gives nothing. -/
inductive Fault where
  /-- There is no entry with the number. -/
  | outOfRange
  /-- More calls inside one another than were allowed. -/
  | unfinished

/-- The entry with a number. -/
def entry {α : Type} (entries : List α) (number : Nat) : Except Fault α :=
  match entries[number]? with
  | none => .error .outOfRange
  | some x => .ok x

lemma entry_eq {α : Type} {entries : List α} {number : Nat} {x : α}
    (h : entries[number]? = some x) : entry entries number = .ok x := by
  rw [entry, h]

/-- Whether a condition on children holds; `refers` runs the matchers referred to. -/
def childHolds (symbols : SymbolTable) (refers : Id → Tree → Except Fault Bool) (node : Tree) :
    ChildCondition → Except Fault Bool
  | .child index m =>
    match node.children[index]? with
    | none => .ok false
    | some n => refers m n
  | .remaining start types => .ok ((node.children.drop start).all (types.admits symbols))

/-- Whether a condition holds. -/
def holds (symbols : SymbolTable) (refers : Id → Tree → Except Fault Bool)
    (procedure : List ChildCondition) (node : Tree) : Condition → Except Fault Bool
  | .type test => .ok (test.admits symbols node)
  | .childCount count => .ok (node.children.length == count)
  | .minChildCount count => .ok (count ≤ node.children.length)
  | .dataEquals text => .ok (node.data == some text)
  | .hasData => .ok node.data.isSome
  | .charRange first last =>
    .ok (node.children.isEmpty && Matcher.inCharRange first last node.data)
  | .children c => childHolds symbols refers node c
  | .procedure => procedure.allM (childHolds symbols refers node)
  | .anyOf ms => ms.anyM (refers · node)
  | .allOf ms => ms.allM (refers · node)

/-- Whether the matcher with a number accepts a node. At most `fuel` calls are made inside one
another. -/
def accepts (symbols : SymbolTable) (table : List Matcher) :
    (fuel : Nat) → Id → Tree → Except Fault Bool
  | 0, _, _ => .error .unfinished
  | fuel + 1, id, node => do
    let m ← entry table id
    let held ← m.conditions.allM (holds symbols (accepts symbols table fuel) m.procedure node)
    return held != m.negated

/-- Takes one step of capturing; `refers` and `captures` run the matchers referred to. -/
def run (accumulate : Bool) (refers : Id → Tree → Except Fault Bool)
    (captures : Id → Tree → Captures → Except Fault Captures) (node : Tree) (c : Captures) :
    Extraction → Except Fault Captures
  | .nested index m =>
    match node.children[index]? with
    | none => .ok c
    | some n => captures m n c
  | .firstOf ms => do
    match ← ms.findM? (refers · node) with
    | none => .ok c
    | some m => captures m node c
  | .each ms => ms.foldlM (fun c m => captures m node c) c
  -- the other steps run no matcher
  | e => .ok (e.run accumulate (fun _ _ => false) (fun _ _ c => c) node c)

/-- Captures what the matcher with a number captures of a node, which need not be accepted. -/
def extract (symbols : SymbolTable) (accumulate : Bool) (table : List Matcher) :
    (fuel : Nat) → Id → Tree → Captures → Except Fault Captures
  | 0, _, _, _ => .error .unfinished
  | fuel + 1, id, node, c => do
    let m ← entry table id
    m.extractions.foldlM
      (run accumulate (accepts symbols table fuel) (extract symbols accumulate table fuel) node) c

/-! Loops in which every call gives a value. -/

section Loops

variable {α β : Type}

lemma allM_eq_ok {p : α → Except Fault Bool} {q : α → Bool} {xs : List α}
    (h : ∀ x ∈ xs, p x = .ok (q x)) : xs.allM p = .ok (xs.all q) := by
  induction xs with
  | nil => rfl
  | cons x xs ih =>
    rw [List.allM, h x List.mem_cons_self, List.all_cons]
    cases hq : q x with
    | false => rfl
    | true => exact ih fun y hy => h y (List.mem_cons_of_mem _ hy)

lemma anyM_eq_ok {p : α → Except Fault Bool} {q : α → Bool} {xs : List α}
    (h : ∀ x ∈ xs, p x = .ok (q x)) : xs.anyM p = .ok (xs.any q) := by
  induction xs with
  | nil => rfl
  | cons x xs ih =>
    rw [List.anyM, h x List.mem_cons_self, List.any_cons]
    cases hq : q x with
    | true => rfl
    | false => exact ih fun y hy => h y (List.mem_cons_of_mem _ hy)

lemma findM?_eq_ok {p : α → Except Fault Bool} {q : α → Bool} {xs : List α}
    (h : ∀ x ∈ xs, p x = .ok (q x)) : xs.findM? p = .ok (xs.find? q) := by
  induction xs with
  | nil => rfl
  | cons x xs ih =>
    rw [List.findM?, h x List.mem_cons_self, List.find?_cons]
    cases hq : q x with
    | true => rfl
    | false => exact ih fun y hy => h y (List.mem_cons_of_mem _ hy)

lemma foldlM_eq_ok {f : β → α → Except Fault β} {g : β → α → β} {xs : List α}
    (h : ∀ x ∈ xs, ∀ b, f b x = .ok (g b x)) (b : β) : xs.foldlM f b = .ok (xs.foldl g b) := by
  induction xs generalizing b with
  | nil => rfl
  | cons x xs ih =>
    rw [List.foldlM_cons, h x List.mem_cons_self, List.foldl_cons]
    exact ih (fun y hy => h y (List.mem_cons_of_mem _ hy)) (g b x)

end Loops

section Steps

variable {symbols : SymbolTable} {refersM : Id → Tree → Except Fault Bool}
  {refers : Id → Tree → Bool} {node : Tree}

lemma childHolds_eq_ok {c : ChildCondition}
    (h : ∀ id ∈ c.matchers, ∀ n, refersM id n = .ok (refers id n)) :
    childHolds symbols refersM node c = .ok (c.holds symbols refers node) := by
  cases c with
  | child index m =>
    rw [childHolds, ChildCondition.holds]
    cases node.children[index]? with
    | none => rfl
    | some n => exact h m (List.mem_singleton.mpr rfl) n
  | remaining start types => rfl

/-- A condition whose matchers run has a value. -/
lemma holds_eq_ok {c : Condition} {procedure : List ChildCondition}
    (hc : ∀ id ∈ c.matchers, ∀ n, refersM id n = .ok (refers id n))
    (hp : ∀ d ∈ procedure, ∀ id ∈ d.matchers, ∀ n, refersM id n = .ok (refers id n)) :
    holds symbols refersM procedure node c = .ok (c.holds symbols refers procedure node) := by
  cases c with
  | children c => exact childHolds_eq_ok hc
  | procedure => exact allM_eq_ok fun d hd => childHolds_eq_ok (hp d hd)
  | anyOf ms => exact anyM_eq_ok fun id hid => hc id hid node
  | allOf ms => exact allM_eq_ok fun id hid => hc id hid node
  | type | childCount | minChildCount | dataEquals | hasData | charRange => rfl

variable {accumulate : Bool} {capturesM : Id → Tree → Captures → Except Fault Captures}
  {captures : Id → Tree → Captures → Captures}

/-- A step of capturing whose matchers run has a value. -/
lemma run_eq_ok {e : Extraction} (hr : ∀ id ∈ e.matchers, ∀ n, refersM id n = .ok (refers id n))
    (hc : ∀ id ∈ e.matchers, ∀ n c, capturesM id n c = .ok (captures id n c)) (c : Captures) :
    run accumulate refersM capturesM node c e =
      .ok (e.run accumulate refers captures node c) := by
  cases e with
  | nested index m =>
    rw [run, Extraction.run]
    cases node.children[index]? with
    | none => rfl
    | some n => exact hc m (List.mem_singleton.mpr rfl) n c
  | firstOf ms =>
    have hfind : ms.findM? (refersM · node) = .ok (ms.find? (refers · node)) :=
      findM?_eq_ok fun id hid => hr id hid node
    rw [run, Extraction.run, hfind]
    cases hf : ms.find? (refers · node) with
    | none => rfl
    | some m => exact hc m (List.mem_of_find?_eq_some hf) node c
  | each ms => exact foldlM_eq_ok (fun id hid c => hc id hid node c) c
  | node | data | child | remaining => rfl

end Steps

/-! Closed tables. -/

section Closed

variable {u : SymbolTable} {l : Language}

/-- What a matcher refers to is older than the matcher. -/
lemma lt_of_refers (hc : l.Closed u) {id : Id} {m : Matcher} (hm : l.matcherList[id]? = some m) :
    (∀ c ∈ m.conditions, ∀ d ∈ c.matchers, d < id) ∧
      (∀ c ∈ m.procedure, ∀ d ∈ c.matchers, d < id) ∧
        ∀ e ∈ m.extractions, ∀ d ∈ e.matchers, d < id := by
  have hid : m.id = id := hc.matcherIds id m hm
  have hlt : ∀ d ∈ m.dependencies, d < id :=
    hid ▸ hc.dependencies m (List.mem_of_getElem? hm)
  refine ⟨fun c hmem d hd => hlt d ?_,fun c hmem d hd => hlt d ?_,fun e hmem d hd => hlt d ?_⟩
  · have hd := List.mem_flatMap.mpr ⟨c,hmem,hd⟩
    exact List.mem_eraseDups.mpr (List.mem_append_left _ (List.mem_append_left _ hd))
  · have hd := List.mem_flatMap.mpr ⟨c,hmem,hd⟩
    exact List.mem_eraseDups.mpr (List.mem_append_left _ (List.mem_append_right _ hd))
  · have hd := List.mem_flatMap.mpr ⟨e,hmem,hd⟩
    exact List.mem_eraseDups.mpr (List.mem_append_right _ hd)

/-- A matcher runs on the matchers that are older. -/
lemma exists_suffix (hc : l.Closed u) {id : Id} (hid : id < l.matchers.length) :
    ∃ m older, l.matcherList[id]? = some m ∧ m :: older <:+ l.matchers ∧ older <:+ l.matchers ∧
      older.length = id ∧ m.id = id := by
  have hlt : id < l.matcherList.length := by rwa [Language.matcherList, List.length_reverse]
  have hm : l.matcherList[id]? = some (l.matcherList.get ⟨id,hlt⟩) := List.getElem?_eq_getElem hlt
  obtain ⟨newer,older,hsplit,hlen⟩ := exists_older hm
  exact ⟨_,older,hm,⟨newer,hsplit.symm⟩,(List.suffix_cons _ _).trans ⟨newer,hsplit.symm⟩,hlen,
    hc.matcherIds id _ hm⟩

theorem accepts_eq_ok (hc : l.Closed u) {fuel : Nat} {id : Id} (hid : id < l.matchers.length)
    (hf : id < fuel) (node : Tree) :
    accepts u l.matcherList fuel id node = .ok (Matcher.accepts u l.matchers id node) := by
  have hn : Matcher.Numbered l.matchers := Matcher.numbered_iff_byPlace.mpr hc.matcherIds
  induction fuel generalizing id node with
  | zero => exact absurd hf (Nat.not_lt_zero _)
  | succ fuel ih =>
    have hf' : id ≤ fuel := Nat.le_of_lt_succ hf
    obtain ⟨m,older,hm,hsuf,hold,hlen,hmid⟩ := exists_suffix hc hid
    obtain ⟨hconds,hproc,-⟩ := lt_of_refers hc hm
    -- every matcher referred to has a lower number, so less fuel is enough for it
    have hrefers : ∀ d < id, ∀ n,
        accepts u l.matcherList fuel d n = .ok (Matcher.accepts u older d n) := by
      intro d hd n
      rw [ih (Nat.lt_trans hd hid) (Nat.lt_of_lt_of_le hd hf') n,
        Matcher.accepts_of_suffix hn hold (hlen ▸ hd)]
    have hall : m.conditions.allM (holds u (accepts u l.matcherList fuel) m.procedure node) =
        .ok (m.conditions.all (·.holds u (Matcher.accepts u older) m.procedure node)) :=
      allM_eq_ok fun c hcm => holds_eq_ok (fun d hd => hrefers d (hconds c hcm d hd))
        (fun c' hc' d hd => hrefers d (hproc c' hc' d hd))
    rw [Matcher.accepts_of_suffix hn hsuf (by simp [hlen]), accepts, entry_eq hm, Matcher.accepts,
      if_pos hmid]
    change (m.conditions.allM (holds u (accepts u l.matcherList fuel) m.procedure node) >>=
      fun held => (pure (held != m.negated) : Except Fault Bool)) = _
    rw [hall]
    rfl

lemma extract_of_suffix {older table : List Matcher} (hn : Matcher.Numbered table)
    (hs : older <:+ table) {id : Id} (hid : id < older.length) (symbols : SymbolTable)
    (accumulate : Bool) (node : Tree) (c : Captures) :
    Matcher.extract symbols accumulate table id node c =
      Matcher.extract symbols accumulate older id node c := by
  rw [Matcher.extract_eq_replay, Matcher.extract_eq_replay, Matcher.stores_of_suffix hn hs hid]

theorem extract_eq_ok (hc : l.Closed u) {fuel : Nat} {id : Id} (hid : id < l.matchers.length)
    (hf : id < fuel) (accumulate : Bool) (node : Tree) (c : Captures) :
    extract u accumulate l.matcherList fuel id node c =
      .ok (Matcher.extract u accumulate l.matchers id node c) := by
  have hn : Matcher.Numbered l.matchers := Matcher.numbered_iff_byPlace.mpr hc.matcherIds
  induction fuel generalizing id node c with
  | zero => exact absurd hf (Nat.not_lt_zero _)
  | succ fuel ih =>
    have hf' : id ≤ fuel := Nat.le_of_lt_succ hf
    obtain ⟨m,older,hm,hsuf,hold,hlen,hmid⟩ := exists_suffix hc hid
    obtain ⟨-,-,hsteps⟩ := lt_of_refers hc hm
    have hrefers : ∀ d < id, ∀ n,
        accepts u l.matcherList fuel d n = .ok (Matcher.accepts u older d n) := by
      intro d hd n
      rw [accepts_eq_ok hc (Nat.lt_trans hd hid) (Nat.lt_of_lt_of_le hd hf'),
        Matcher.accepts_of_suffix hn hold (hlen ▸ hd)]
    have hcaptures : ∀ d < id, ∀ n c, extract u accumulate l.matcherList fuel d n c =
        .ok (Matcher.extract u accumulate older d n c) := by
      intro d hd n c
      rw [ih (Nat.lt_trans hd hid) (Nat.lt_of_lt_of_le hd hf') n c,
        extract_of_suffix hn hold (hlen ▸ hd)]
    rw [extract_of_suffix hn hsuf (by simp [hlen]), extract, entry_eq hm, Matcher.extract,
      if_pos hmid]
    exact foldlM_eq_ok (fun e he c => run_eq_ok (fun d hd => hrefers d (hsteps e he d hd))
      (fun d hd => hcaptures d (hsteps e he d hd)) c) c

end Closed

end TreeRules.Indexed
