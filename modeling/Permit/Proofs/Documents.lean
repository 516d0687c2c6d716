-- Criteria as JSON documents: a document that was written reads back as a tree with the
-- groups of a document, so no decision sees that the tree was sent.
import Permit.Catalog
import Permit.Proofs.SetAside

namespace Permit.Criteria

open Json

variable {α β : Type}

/-! ## The lists of a document -/

theorem nodes_eq (write : α → Value) (cs : List (Criteria α)) :
    nodes write cs = cs.map (node write) := by
  induction cs with
  | nil => rfl
  | cons c rest ih => rw [nodes, ih, List.map_cons]

theorem conjunctions_eq (write : α → Value) (cs : List (Criteria α)) :
    conjunctions write cs = cs.map (conjunction write) := by
  induction cs with
  | nil => rfl
  | cons c rest ih => rw [conjunctions, ih, List.map_cons]

/-- The nodes of a tree where a conjunction is due. -/
def nodesOf : Criteria α → List (Criteria α)
  | .all children => children
  | c => [c]

/-- The conjunctions of a tree where a document is due. -/
def conjunctionsOf : Criteria α → List (Criteria α)
  | .any children => children
  | c => [c]

theorem leaves_of_conjunctionsOf {c d : Criteria α} (h : d ∈ c.conjunctionsOf) {a : α}
    (ha : a ∈ d.leaves) : a ∈ c.leaves := by
  cases c with
  | any cs => exact mem_leaves_any h ha
  | _ => rwa [List.mem_singleton.1 h] at ha

/-- A tree has the leaves of its conjunctions, and any of these decides it. -/
theorem leaves_conjunctionsOf (c : Criteria α) : (any c.conjunctionsOf).leaves = c.leaves := by
  cases c <;> simp [conjunctionsOf, leaves_any]

theorem evaluateM_conjunctionsOf {m : Type → Type} [Monad m] [LawfulMonad m]
    (decide : α → m Bool) (c : Criteria α) :
    evaluateM decide (any c.conjunctionsOf) = evaluateM decide c := by
  cases c <;> simp only [conjunctionsOf, evaluateM, someM_singleton]

theorem conjunction_eq (write : α → Value) (c : Criteria α) :
    conjunction write c = allOf (nodes write c.nodesOf) := by
  cases c <;> simp [conjunction, nodesOf, nodes, node]

theorem toJson_eq (write : α → Value) (c : Criteria α) :
    toJson write c = anyOf (conjunctions write c.conjunctionsOf) := by
  cases c <;> simp [toJson, conjunctionsOf, conjunctions]

theorem asDocument_eq_any (c : Criteria α) :
    asDocument c = .any (asConjunctions c.conjunctionsOf) := by
  cases c <;> simp [asDocument, conjunctionsOf, asConjunctions]

/-! ## Documents of other trees -/

/-- A document of replaced leaves is one of the leaves, written otherwise. -/
theorem node_map (write : β → Value) (f : α → β) (c : Criteria α) :
    node write (c.map f) = node (fun a => write (f a)) c ∧
      conjunction write (c.map f) = conjunction (fun a => write (f a)) c := by
  induction c with
  | leaf a => simp [map_leaf, node, conjunction]
  | all cs ih =>
    have inner : (cs.map (map f)).map (node write) = cs.map (node fun a => write (f a)) := by
      simpa using fun c hc => (ih c hc).1
    rw [map_all, node, node, conjunction, conjunction, nodes_eq, nodes_eq, inner]
    exact ⟨rfl, rfl⟩
  | any cs ih =>
    have inner : (cs.map (map f)).map (conjunction write)
        = cs.map (conjunction fun a => write (f a)) := by
      simpa using fun c hc => (ih c hc).2
    rw [map_any, node, node, conjunction, conjunction, conjunctions_eq, conjunctions_eq, inner]
    exact ⟨rfl, rfl⟩

theorem toJson_map (write : β → Value) (f : α → β) (c : Criteria α) :
    toJson write (c.map f) = toJson (fun a => write (f a)) c := by
  have lists : (c.map f).conjunctionsOf = c.conjunctionsOf.map (map f) := by
    cases c <;> simp [map_leaf, map_all, map_any, conjunctionsOf]
  rw [toJson_eq, toJson_eq, lists, conjunctions_eq, conjunctions_eq, List.map_map]
  congr 1
  exact List.map_congr_left fun d _ => (node_map write f d).2

/-- A tree with the groups of a document has the document of the tree. -/
theorem node_asNode (write : α → Value) (c : Criteria α) :
    node write (asNode c) = node write c ∧
      conjunction write (asConjunction c) = conjunction write c := by
  induction c with
  | leaf a => simp [asNode, asConjunction, conjunction, nodes, node]
  | all cs ih =>
    have inner : (cs.map asNode).map (node write) = cs.map (node write) := by
      simpa using fun c hc => (ih c hc).1
    simp [asNode, asConjunction, asNodes_eq, node, conjunction, conjunctions, nodes_eq, inner]
  | any cs ih =>
    have inner : (cs.map asConjunction).map (conjunction write) = cs.map (conjunction write) := by
      simpa using fun c hc => (ih c hc).2
    simp [asNode, asConjunction, asConjunctions_eq, node, conjunction, nodes, conjunctions_eq,
      inner]

theorem toJson_asDocument (write : α → Value) (c : Criteria α) :
    toJson write c.asDocument = toJson write c := by
  rw [asDocument_eq_any, toJson_eq, toJson_eq, asConjunctions_eq, conjunctions_eq, conjunctions_eq,
    conjunctionsOf, List.map_map]
  congr 1
  exact List.map_congr_left fun d _ => (node_asNode write d).2

/-! ## Documents that were written -/

section Written

variable {write : α → Value} {leaf? : Value → Option β} {tree : α → Criteria β}

theorem nested?_anyOf (vs : List Value) :
    nested? leaf? (anyOf vs) = (conjunctions? leaf? vs).map .any := by
  rw [anyOf, nested?]
  simp

theorem conjunction?_allOf (vs : List Value) :
    conjunction? leaf? (allOf vs) = (nodes? leaf? vs).map .all := by
  rw [allOf, conjunction?]
  simp

theorem nodes?_nodes {f : Criteria α → Criteria β} {cs : List (Criteria α)}
    (h : ∀ c ∈ cs, node? leaf? (node write c) = some (f c)) :
    nodes? leaf? (nodes write cs) = some (cs.map f) := by
  rw [nodes?_eq_some_iff, nodes_eq, List.forall₂_map_left_iff, List.forall₂_map_right_iff]
  exact List.forall₂_same.2 h

theorem conjunctions?_conjunctions {f : Criteria α → Criteria β} {cs : List (Criteria α)}
    (h : ∀ c ∈ cs, conjunction? leaf? (conjunction write c) = some (f c)) :
    conjunctions? leaf? (conjunctions write cs) = some (cs.map f) := by
  rw [conjunctions?_eq_some_iff, conjunctions_eq, List.forall₂_map_left_iff,
    List.forall₂_map_right_iff]
  exact List.forall₂_same.2 h

/-- A written node reads back, and so does a written conjunction, with the tree of each leaf in
its place. -/
theorem node?_node (c : Criteria α)
    (reads : ∀ a ∈ c.leaves, node? leaf? (write a) = some (tree a)) :
    node? leaf? (node write c) = some (asNode (graft tree c)) ∧
      conjunction? leaf? (conjunction write c) = some (asConjunction (graft tree c)) := by
  induction c with
  | leaf a =>
    have read := reads a (by simp [leaves])
    -- What is read in place of the leaf has the groups of a document already.
    obtain ⟨self, alone⟩ := (node?_settled (tree a) (write a)).1 read
    have one : nodes? leaf? [write a] = some [tree a] := by
      simpa [nodes?_eq_some_iff] using read
    rw [graft, node, conjunction, self, alone, conjunction?_allOf, one]
    exact ⟨read, rfl⟩
  | all cs ih =>
    have inner := nodes?_nodes fun c hc => (ih c hc fun a ha => reads a (mem_leaves_all hc ha)).1
    have group : conjunction? leaf? (allOf (nodes write cs))
        = some (.all (cs.map fun c => asNode (graft tree c))) := by
      rw [conjunction?_allOf, inner]
      rfl
    have whole : nested? leaf? (anyOf [allOf (nodes write cs)])
        = some (.any [.all (cs.map fun c => asNode (graft tree c))]) := by
      simp [nested?_anyOf, conjunctions?, group]
    simp [graft, graftAll_eq, node, conjunction, asNode, asConjunction, asNodes_eq, node?, group,
      whole, Function.comp_def]
  | any cs ih =>
    have inner := conjunctions?_conjunctions fun c hc =>
      (ih c hc fun a ha => reads a (mem_leaves_any hc ha)).2
    have whole : nested? leaf? (anyOf (conjunctions write cs))
        = some (.any (cs.map fun c => asConjunction (graft tree c))) := by
      rw [nested?_anyOf, inner]
      rfl
    simp [graft, graftAll_eq, node, conjunction, asNode, asConjunction, asConjunctions_eq, node?,
      nodes?, conjunction?_allOf, whole, Function.comp_def]

/-- A written document reads back, with the tree of each leaf in its place. -/
theorem nested?_toJson (c : Criteria α)
    (reads : ∀ a ∈ c.leaves, node? leaf? (write a) = some (tree a)) :
    nested? leaf? (toJson write c)
      = some (.any (c.conjunctionsOf.map fun d => asConjunction (graft tree d))) := by
  have inner := conjunctions?_conjunctions fun d hd =>
    (node?_node d fun a ha => reads a (leaves_of_conjunctionsOf hd ha)).2
  rw [toJson_eq, nested?_anyOf, inner]
  rfl

end Written

/-- A document that was written decodes to the tree with the groups of a document, if each leaf
reads back and is not taken for a document. -/
theorem decode_toJson {write : α → Value} {d : Decoder α} {c : Criteria α}
    (reads : ∀ a ∈ c.leaves, node? d.ofBuffer? (write a) = some (leaf a)) (origin : Origin) :
    (decoder d).decode origin (toJson write c).toDraft = .ok (asDocument c) := by
  rw [decode_document_iff, nested?_toJson c reads, asDocument_eq_any, asConjunctions_eq]
  simp only [graft_leaf]

/-! ## Canonical form -/

theorem normalize_anyOf (vs : List Value) :
    (anyOf vs).normalize = anyOf (Value.normalizeItems vs) := by
  simp [anyOf, Value.normalize, Value.normalizeMembers, Value.sortMembers, Value.insertMember]

theorem normalize_allOf (vs : List Value) :
    (allOf vs).normalize = allOf (Value.normalizeItems vs) := by
  simp [allOf, Value.normalize, Value.normalizeMembers, Value.sortMembers, Value.insertMember]

section Change

variable {f : Value → Value} (documents : ∀ vs, f (anyOf vs) = anyOf (vs.map f))
  (groups : ∀ vs, f (allOf vs) = allOf (vs.map f))
include documents groups

/-- What changes each group by its parts changes the leaves where they stand. -/
theorem change_node (write : α → Value) (c : Criteria α) :
    f (node write c) = node (fun a => f (write a)) c ∧
      f (conjunction write c) = conjunction (fun a => f (write a)) c := by
  induction c with
  | leaf a => simp [node, conjunction, groups]
  | all cs ih =>
    have inner : (cs.map (node write)).map f = cs.map (node fun a => f (write a)) := by
      simpa using fun c hc => (ih c hc).1
    rw [node, node, conjunction, conjunction, documents, groups, nodes_eq, nodes_eq, inner,
      List.map_singleton, groups, inner]
    exact ⟨rfl, rfl⟩
  | any cs ih =>
    have inner : (cs.map (conjunction write)).map f
        = cs.map (conjunction fun a => f (write a)) := by
      simpa using fun c hc => (ih c hc).2
    rw [node, node, conjunction, conjunction, groups, documents, conjunctions_eq, conjunctions_eq,
      inner, List.map_singleton, documents, inner]
    exact ⟨rfl, rfl⟩

theorem change_toJson (write : α → Value) (c : Criteria α) :
    f (toJson write c) = toJson (fun a => f (write a)) c := by
  rw [toJson_eq, toJson_eq, documents, conjunctions_eq, conjunctions_eq, List.map_map]
  congr 1
  exact List.map_congr_left fun d _ => (change_node documents groups write d).2

end Change

/-- The canonical form of a document is that of its leaves: every group has one member. -/
theorem normalize_toJson (write : α → Value) (c : Criteria α) :
    (toJson write c).normalize = toJson (fun a => (write a).normalize) c :=
  change_toJson (fun vs => by rw [normalize_anyOf, normalizeItems_eq])
    (fun vs => by rw [normalize_allOf, normalizeItems_eq]) write c

/-! ## Forms of leaves -/

/-- How leaves of one type are written and read. -/
structure LeafForm (α : Type) where
  write : α → Value
  decoder : Decoder α

namespace LeafForm

/-- A node sets its value aside before it finds out what the value is. `reads` is the way back
from what was set aside, which a type may fail although it reads back from its own value; and
`apart` says that no written leaf is taken for a document. -/
structure Faithful (F : LeafForm α) : Prop where
  reads : ∀ a, F.decoder.ofBuffer? (F.write a).normalize = some a
  apart : ∀ a, nested? F.decoder.ofBuffer? (F.write a).normalize = none

/-- The value that a tree is sent as. -/
def value (F : LeafForm α) (c : Criteria α) : Value := (c.toJson F.write).normalize

/-- The tree that arrives when a tree is sent as a value. -/
def trip (F : LeafForm α) (c : Criteria α) : Except Failure (Criteria α) :=
  (Criteria.decoder F.decoder).ofValue (F.value c)

/-- What arrives has the groups of a document, with the tree of each leaf in its place. -/
theorem trip_eq {F : LeafForm α} {tree : α → Criteria α} {c : Criteria α}
    (reads : ∀ a ∈ c.leaves, node? F.decoder.ofBuffer? (F.write a).normalize = some (tree a)) :
    F.trip c = .ok (.any (c.conjunctionsOf.map fun d => asConjunction (graft tree d))) := by
  unfold trip value Decoder.ofValue
  rw [normalize_toJson, decode_document_iff]
  exact nested?_toJson c reads

/-- Where each leaf reads back, what arrives is the tree with the groups of a document. -/
theorem trip_of_reads {F : LeafForm α} {c : Criteria α}
    (reads : ∀ a ∈ c.leaves, node? F.decoder.ofBuffer? (F.write a).normalize = some (leaf a)) :
    F.trip c = .ok (regroup.run c) := by
  unfold trip value Decoder.ofValue
  rw [normalize_toJson]
  exact decode_toJson reads .value

theorem Faithful.trip_eq {F : LeafForm α} (h : F.Faithful) (c : Criteria α) :
    F.trip c = .ok (regroup.run c) :=
  trip_of_reads fun a _ => node?_of_leaf (h.reads a) (h.apart a)

/-- Each tree arrives with its leaves in their order, and no decision sees that it was
sent: the outcome is the same, and so are the leaves that are asked about. -/
def KeepsMeaning (F : LeafForm α) : Prop :=
  ∀ c, ∃ c', F.trip c = .ok c' ∧ c'.leaves = c.leaves ∧
    ∀ {ε : Type} (decide : α → Except ε Bool),
      c'.tryEvaluate decide = c.tryEvaluate decide ∧ c'.walk decide = c.walk decide

def condition : LeafForm Condition := ⟨Condition.toJson, Condition.decoder⟩

def int64 : LeafForm Int64 := ⟨fun i => .ofInt i.toInt, .int64⟩

def bool : LeafForm Bool := ⟨.bool, .bool⟩

def string : LeafForm String := ⟨.str, .string⟩

def filter : LeafForm Catalog.Filter := ⟨Catalog.Filter.toJson, Catalog.Filter.decoder⟩

theorem faithful_bool : bool.Faithful := ⟨fun _ => rfl, fun _ => rfl⟩

theorem faithful_string : string.Faithful := ⟨fun _ => rfl, fun _ => rfl⟩

theorem write_int64 (i : Int64) : ∃ fits, int64.write i = .num (.int i.toInt fits) := by
  have fits : Fits i.toInt := by
    have low := i.le_toInt
    have high := i.toInt_lt
    unfold Fits
    omega
  exact ⟨fits, by simp [int64, Value.ofInt, Number.int?, fits]⟩

theorem faithful_int64 : int64.Faithful := by
  constructor
  · intro i
    obtain ⟨fits, h⟩ := write_int64 i
    have low := i.le_toInt
    have high := i.toInt_lt
    have inside : -0x8000000000000000 ≤ i.toInt ∧ i.toInt ≤ 0x7fffffffffffffff := by omega
    rw [h]
    simp [int64, Value.normalize, Decoder.ofBuffer?, Value.toDraft, Decoder.int64, Decoder.map,
      Decoder.integer, inside, Except.map, Except.toOption]
  · intro i
    obtain ⟨fits, h⟩ := write_int64 i
    rw [h]
    rfl

/-- A condition is an object of two members, in either order. -/
theorem decode_condition (c : Condition) (origin : Origin) (ms : List (String × Value))
    (h : ms.Perm [("rule", .str c.rule), ("params", .arr c.params)]) :
    Condition.decoder.decode origin (Value.obj ms).toDraft = .ok c := by
  have same := Value.normalizeItems_of_canonical c.params (Value.canonicalItems_iff.2 c.canonical)
  exact Condition.decode_iff.2 (.full (.named h) same.symm)

theorem write_condition (c : Condition) :
    (condition.write c).normalize = .obj [("params", .arr c.params), ("rule", .str c.rule)] := by
  have same := Value.normalizeItems_of_canonical c.params (Value.canonicalItems_iff.2 c.canonical)
  have first : ("params" : String) < "rule" := by decide
  simp [condition, Condition.toJson, Value.normalize, Value.normalizeMembers, same,
    Value.sortMembers, Value.insertMember, first]

theorem faithful_condition : condition.Faithful := by
  constructor
  · intro c
    rw [write_condition, Decoder.ofBuffer?]
    exact congrArg Except.toOption (decode_condition c .buffer _ (.swap _ _ _))
  · intro c
    rw [write_condition]
    rfl

theorem write_isIn (key : String) (values : List String) :
    (filter.write (.isIn key values)).normalize
      = .obj [("key", .str key), ("op", .str "in"), ("values", .arr (values.map .str))] := by
  have same : Value.normalizeItems (values.map .str) = values.map .str := by
    rw [normalizeItems_eq, List.map_map]
    exact List.map_congr_left fun v _ => rfl
  have order : ("key" : String) < "op" ∧ ¬ ("values" : String) < "key" ∧
      ¬ ("values" : String) < "op" := by decide
  simp [filter, Catalog.Filter.toJson, Value.normalize, Value.normalizeMembers, same,
    Value.sortMembers, Value.insertMember, order]

theorem write_exists (key : String) :
    (filter.write (.exists key)).normalize
      = .obj [("key", .str key), ("op", .str "exists")] := by
  have order : ("key" : String) < "op" := by decide
  simp [filter, Catalog.Filter.toJson, Value.normalize, Value.normalizeMembers,
    Value.sortMembers, Value.insertMember, order]

/-- A filter of values is read as it is written, and also with its names in order. -/
theorem reads_isIn (key : String) (values : List String) :
    Catalog.Filter.decoder.ofBuffer? (.obj [("op", .str "in"), ("key", .str key),
      ("values", .arr (values.map .str))]) = some (.isIn key values) ∧
    Catalog.Filter.decoder.ofBuffer? (.obj [("key", .str key), ("op", .str "in"),
      ("values", .arr (values.map .str))]) = some (.isIn key values) := by
  have strings : (Decoder.list Decoder.string).decode .buffer
      (Value.arr (values.map .str)).toDraft = .ok values :=
    decode_list_iff.2 ⟨_, rfl, List.forall₂_map_left_iff.2 (List.forall₂_same.2 fun v _ => rfl)⟩
  have taken : ((Record.required "key" .string).and
      (Record.required "values" (.list .string))).Takes .buffer
      [("key", .str key), ("values", (Value.arr (values.map .str)).toDraft)] (key, values) :=
    .and (.field rfl rfl) (.field rfl strings)
  have fields (f : String × List String → Catalog.Filter) :=
    (taken.map f).decode (fun _ h => h) (by simp) "struct variant Filter::In" false
  rw [Value.toDraft] at fields
  constructor <;>
    simp [Decoder.ofBuffer?, Catalog.Filter.decoder, Variants.toTaggedDecoder,
      Catalog.Filter.variants, Value.toDraft, Value.toDraftMembers, Variants.splitMembers,
      Draft.settle, Value.settle_toDraftItems, Variants.ofTag, Variants.select,
      Decoder.unlessBroken, Payload.ofTagged, fields, Except.map, bind, Except.bind,
      Except.toOption]

theorem faithful_filter : filter.Faithful := by
  constructor
  · intro f
    cases f with
    | isIn key values =>
      rw [write_isIn]
      exact (reads_isIn key values).2
    | «exists» key =>
      rw [write_exists]
      rfl
  · intro f
    cases f with
    | isIn key values =>
      rw [write_isIn]
      rfl
    | «exists» key =>
      rw [write_exists]
      rfl

/-- A form whose leaves read back keeps the meaning of trees. -/
theorem Faithful.keepsMeaning {F : LeafForm α} (h : F.Faithful) : F.KeepsMeaning := by
  intro c
  refine ⟨regroup.run c, h.trip_eq c, regroup.leaves_run c, fun decide => ?_⟩
  exact ⟨regroup.tryEvaluate_run decide c, regroup.walk_run decide c⟩

end LeafForm

/-! ## The law of documents -/

/-- If leaves read back from what a node sets aside, and none is taken for a document, then
sending a tree changes no leaf and no decision, and replacing leaves commutes with it.
Conditions, whole numbers, truth values, strings and filters are such leaves. -/
theorem documents_keep_meaning :
    (∀ {α : Type} (F : LeafForm α), F.Faithful → F.KeepsMeaning) ∧
    (∀ {α β : Type} (F : LeafForm α) (G : LeafForm β), F.Faithful → G.Faithful →
      ∀ (f : α → β) (c : Criteria α), G.trip (c.map f) = (F.trip c).map (map f)) ∧
    LeafForm.condition.Faithful ∧ LeafForm.int64.Faithful ∧ LeafForm.bool.Faithful ∧
    LeafForm.string.Faithful ∧ LeafForm.filter.Faithful := by
  refine ⟨fun F h => h.keepsMeaning, fun F G hF hG f c => ?_, LeafForm.faithful_condition,
    LeafForm.faithful_int64, LeafForm.faithful_bool, LeafForm.faithful_string,
    LeafForm.faithful_filter⟩
  rw [hG.trip_eq, hF.trip_eq, regroup.run_map]
  rfl

/-- A tree with an empty group, a group of one and an "any of" inside an "any of". -/
theorem documents_keep_a_mixed_tree :
    LeafForm.string.Faithful ∧
    ∃ c', LeafForm.string.trip (.any [.any [.leaf "a"], .all [], .all [.leaf "b"]]) = .ok c' ∧
      c'.leaves = ["a", "b"] ∧ ∀ {ε : Type} (decide : String → Except ε Bool),
        c'.walk decide = walk decide (.any [.any [.leaf "a"], .all [], .all [.leaf "b"]]) := by
  refine ⟨LeafForm.faithful_string, ?_⟩
  obtain ⟨c', arrives, leaves, same⟩ := documents_keep_meaning.1 LeafForm.string
    LeafForm.faithful_string (.any [.any [.leaf "a"], .all [], .all [.leaf "b"]])
  exact ⟨c', arrives, leaves, fun decide => (same decide).2⟩

end Permit.Criteria
