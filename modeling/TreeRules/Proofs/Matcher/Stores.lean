import TreeRules.Matcher.Run
import TreeRules.Proofs.Capture.Store

/-! What matchers store, read off as a list, and tables that grow: a matcher does the same however
many newer ones are put before it. -/
namespace TreeRules
namespace Matcher

/-- What one step of capturing stores. -/
def Extraction.stores (refers : Id → Tree → Bool) (stored : Id → Tree → List (Hole × Capture))
    (node : Tree) : Extraction → List (Hole × Capture)
  | .node hole => [(hole,.node node)]
  | .data hole => node.data.toList.map fun text => (hole,.data text)
  | .child hole index => node.children[index]?.toList.map fun n => (hole,.nodes [n])
  | .remaining hole start => [(hole,.nodes (node.children.drop start))]
  | .nested index m => node.children[index]?.toList.flatMap (stored m)
  | .firstOf ms => (ms.find? (refers · node)).toList.flatMap (stored · node)
  | .each ms => ms.flatMap (stored · node)

/-- What matcher `id` of the table stores of the node. -/
def stores (symbols : SymbolTable) : (table : List Matcher) → Id → Tree → List (Hole × Capture)
  | [], _, _ => []
  | m :: older, id, node =>
    if m.id = id then
      m.extractions.flatMap
        (Extraction.stores (accepts symbols older) (stores symbols older) node)
    else stores symbols older id node

/-- The stores of an item that is repeated or not. -/
def asStores (accumulate : Bool) (stored : List (Hole × Capture)) : List Store :=
  stored.map fun p => ⟨accumulate,p.1,p.2⟩

lemma asStores_append (accumulate : Bool) (xs ys : List (Hole × Capture)) :
    asStores accumulate (xs ++ ys) = asStores accumulate xs ++ asStores accumulate ys :=
  List.map_append

section Run

variable {accumulate : Bool} {refers : Id → Tree → Bool}
  {captures : Id → Tree → Captures → Captures} {stored : Id → Tree → List (Hole × Capture)}

lemma foldl_captures (hc : ∀ m n c, captures m n c = c.replay (asStores accumulate (stored m n)))
    (node : Tree) (ms : List Id) (c : Captures) :
    ms.foldl (fun c m => captures m node c) c =
      c.replay (asStores accumulate (ms.flatMap (stored · node))) := by
  induction ms generalizing c with
  | nil => rfl
  | cons m ms ih =>
    rw [List.foldl_cons, ih, hc, List.flatMap_cons, asStores_append, Captures.replay_append]

/-- A step of capturing stores what is listed for it. -/
lemma Extraction.run_eq_replay
    (hc : ∀ m n c, captures m n c = c.replay (asStores accumulate (stored m n)))
    (node : Tree) (c : Captures) (e : Extraction) :
    e.run accumulate refers captures node c =
      c.replay (asStores accumulate (e.stores refers stored node)) := by
  cases e with
  | node hole => rfl
  | data hole => cases hd : node.data <;> simp [run, stores, hd, asStores, Captures.store]
  | child hole index =>
    cases hi : node.children[index]? <;>
      simp [run, stores, hi, asStores, Captures.store, Captures.pushNode]
  | remaining hole start => rfl
  | nested index m =>
    cases hi : node.children[index]? with
    | none => simp [run, stores, hi, asStores]
    | some n => simp [run, stores, hi, hc]
  | firstOf ms =>
    cases hf : ms.find? (refers · node) with
    | none => simp [run, stores, hf, asStores]
    | some m => simp [run, stores, hf, hc]
  | each ms => exact foldl_captures hc node ms c

lemma foldl_run (hc : ∀ m n c, captures m n c = c.replay (asStores accumulate (stored m n)))
    (node : Tree) (es : List Extraction) (c : Captures) :
    es.foldl (Extraction.run accumulate refers captures node) c =
      c.replay (asStores accumulate (es.flatMap (Extraction.stores refers stored node))) := by
  induction es generalizing c with
  | nil => rfl
  | cons e es ih =>
    rw [List.foldl_cons, ih, Extraction.run_eq_replay hc, List.flatMap_cons, asStores_append,
      Captures.replay_append]

end Run

/-- Capturing stores what is listed, and nothing else. -/
theorem extract_eq_replay (symbols : SymbolTable) (accumulate : Bool) (table : List Matcher)
    (id : Id) (node : Tree) (c : Captures) :
    extract symbols accumulate table id node c =
      c.replay (asStores accumulate (stores symbols table id node)) := by
  induction table generalizing id node c with
  | nil => rfl
  | cons m older ih =>
    rw [extract, stores]
    split_ifs with hm
    · exact foldl_run ih node m.extractions c
    · exact ih id node c

/-! Growing tables. -/

/-- Every matcher is numbered by its place, counted from the oldest on. -/
def Numbered : List Matcher → Prop
  | [] => True
  | m :: older => m.id = older.length ∧ Numbered older

/-- A newer matcher does not have the number of an older one. -/
lemma Numbered.id_ne {m : Matcher} {newer older : List Matcher}
    (hn : Numbered (m :: (newer ++ older))) {id : Id} (hid : id < older.length) : m.id ≠ id := by
  rw [hn.1, List.length_append]
  exact Nat.ne_of_gt (Nat.lt_add_left _ hid)

section Growing

variable {older table : List Matcher} (hn : Numbered table) (hs : older <:+ table) {id : Id}
  (hid : id < older.length)
include hn hs hid

lemma accepts_of_suffix (symbols : SymbolTable) (node : Tree) :
    accepts symbols table id node = accepts symbols older id node := by
  obtain ⟨newer,rfl⟩ := hs
  induction newer with
  | nil => rfl
  | cons m newer ih =>
    have hne := hn.id_ne hid
    rw [List.cons_append, accepts, if_neg hne, ih hn.2]

lemma stores_of_suffix (symbols : SymbolTable) (node : Tree) :
    stores symbols table id node = stores symbols older id node := by
  obtain ⟨newer,rfl⟩ := hs
  induction newer with
  | nil => rfl
  | cons m newer ih =>
    have hne := hn.id_ne hid
    rw [List.cons_append, stores, if_neg hne, ih hn.2]

end Growing

/-- A matcher without steps of capturing stores nothing. -/
lemma stores_eq_nil {table : List Matcher} {id : Id}
    (h : (table.find? (·.id == id)).any extracts = false) (symbols : SymbolTable) (node : Tree) :
    stores symbols table id node = [] := by
  induction table with
  | nil => rfl
  | cons m older ih =>
    rw [stores]
    split_ifs with hm
    · have he : m.extractions = [] := by simpa [hm, extracts] using h
      rw [he, List.flatMap_nil]
    · exact ih (by simpa [hm] using h)

end Matcher
end TreeRules
