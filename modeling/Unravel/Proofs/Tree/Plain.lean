import Unravel.Proofs.Numeral.Exact
import Unravel.Proofs.Tree.Term

/-!
Trees without their spellings. A plain literal has no raw text, and if it is not a number, it is the
one NaN (`Literal.plain`). A plain tree has plain literals and is the same tree otherwise
(`Tree.plain`).

Nodes with the same kind name hold their children in the same fields if they agree at the head,
since the head says which of the optional fields are filled (`Node.map_eq_map_iff`). So what can be
told from two flat lists of children is what can be told from the fields.

Main statement: the comparison of trees decides whether they are plainly the same
(`Tree.Linked.agrees_decides`).
-/

namespace Unravel

namespace Literal

/-- A literal as a value: no spelling, and one NaN. -/
def plain : Literal → Literal
  | string value _ => string value none
  | number x => number (if x.isNaN then nan else x)
  | boolean value => boolean value
  | null => null

theorem plain_number_eq_iff (x y : Float) :
    (number x).plain = (number y).plain ↔
      x.toBits = y.toBits ∨ x.isNaN = true ∧ y.isNaN = true := by
  have isNaN : nan.isNaN = true := by decide +kernel
  have same : x.toBits = y.toBits ↔ x = y := by
    constructor
    · intro bits
      exact Double.eq_of_toBits (congrArg UInt64.toBitVec bits)
    · exact congrArg Float.toBits
  simp only [plain, number.injEq, same]
  grind

theorem agrees_iff (x y : Literal) : x.agrees y = true ↔ x.plain = y.plain := by
  cases x <;> cases y
  case number.number x y =>
    rw [plain_number_eq_iff]
    simp [agrees]
  all_goals simp [agrees, plain]

end Literal

namespace Node

variable {α β γ δ : Type}

def plain : Node α → Node α
  | literal value => literal value.plain
  | n => n

@[simp] theorem kindName_plain (n : Node α) : n.plain.kindName = n.kindName := by
  cases n <;> rfl

@[simp] theorem kindName_map (f : α → β) (n : Node α) : (n.map f).kindName = n.kindName := by
  cases n <;> rfl

@[simp] theorem children_plain (n : Node α) : n.plain.children = n.children := by
  cases n <;> rfl

theorem kindName_eq_of_agreesAtHead {n : Node α} {m : Node β} (agree : n.agreesAtHead m = true) :
    n.kindName = m.kindName := by
  unfold agreesAtHead at agree
  split at agree
  case h_19 => exact of_decide_eq_true agree
  all_goals rfl

theorem agreesAtHead_map (f : α → γ) (g : β → δ) (n : Node α) (m : Node β) :
    (n.map f).agreesAtHead (m.map g) = n.agreesAtHead m := by
  cases n <;> cases m <;> first | rfl | simp [map, traverse, run_mapM_option, agreesAtHead]

theorem toList_append_eq_iff {o : Option α} {p : Option β} {f : α → γ} {g : β → γ} {os ps : List γ}
    (filled : o.isSome = p.isSome) :
    o.toList.map f ++ os = p.toList.map g ++ ps ↔ o.toList.map f = p.toList.map g ∧ os = ps := by
  cases o <;> cases p <;> simp_all

theorem option_map_eq_iff {o : Option α} {p : Option β} {f : α → γ} {g : β → γ} :
    o.map f = p.map g ↔ o.isSome = p.isSome ∧ o.toList.map f = p.toList.map g := by
  cases o <;> cases p <;> simp

theorem map_eq_map_iff {n : Node α} {m : Node β} {f : α → γ} {g : β → γ}
    (kind : n.kindName = m.kindName) :
    n.plain.map f = m.plain.map g ↔
      n.agreesAtHead m = true ∧ n.children.map f = m.children.map g := by
  cases n <;> cases m <;> first | (simp [kindName] at kind; done) | clear kind
  -- An optional field is split into whether it is filled, which the head says too, and what fills
  -- it.
  all_goals
    simp [plain, map, traverse, run_mapM_option, agreesAtHead, children, Literal.agrees_iff,
      option_map_eq_iff, kindName]
  case function.function => grind [toList_append_eq_iff, List.append_singleton_inj]
  case classDef.classDef | for_.for_ | switchCase.switchCase => grind [toList_append_eq_iff]
  all_goals grind

theorem plain_map_eq_iff {n : Node α} {m : Node β} {f : α → γ} {g : β → γ} :
    n.plain.map f = m.plain.map g ↔
      n.agreesAtHead m = true ∧ n.children.map f = m.children.map g := by
  constructor
  · intro same
    have kind : n.kindName = m.kindName := by simpa using congrArg kindName same
    exact (map_eq_map_iff kind).mp same
  · intro ⟨agree, children⟩
    exact (map_eq_map_iff (kindName_eq_of_agreesAtHead agree)).mpr ⟨agree, children⟩

end Node

namespace Tree

variable {t : Tree} {a b id : NodeId}

/-- The tree with its nodes made plain, each at its handle. -/
def plain (t : Tree) : Tree := ⟨t.entries.map fun entry => { entry with node := entry.node.plain }⟩

@[simp] theorem node_plain (t : Tree) (id : NodeId) : t.plain.node id = (t.node id).plain := by
  simp only [plain, Tree.node, Array.getElem?_map]
  cases t.entries[id.index]? <;> rfl

@[simp] theorem parent?_plain (t : Tree) (id : NodeId) : t.plain.parent? id = t.parent? id := by
  simp only [plain, parent?, Array.getElem?_map]
  cases t.entries[id.index]? <;> rfl

theorem Linked.plain (linked : t.Linked) : t.plain.Linked where
  mem_children := by simp [linked.mem_children]
  nodup_children := by simp [linked.nodup_children]
  wellFounded := by simpa using linked.wellFounded

theorem Linked.term_mk (linked : t.Linked) (id : NodeId) :
    t.term id = .mk ((t.node id).map t.term) := by
  by_cases allocated : t.Allocated id
  · exact linked.term_eq allocated
  · rw [node_of_not_allocated allocated, term]
    have isEmpty {limit : Nat} : t.termWithin limit id = .mk .empty := by
      cases limit with
      | zero => rfl
      | succ limit =>
        rw [termWithin, node_of_not_allocated allocated]
        rfl
    exact isEmpty

theorem Linked.term_plain (linked : t.Linked) (id : NodeId) :
    t.plain.term id = .mk ((t.node id).plain.map t.plain.term) := by
  rw [linked.plain.term_mk, node_plain]

theorem Linked.agrees_step (linked : t.Linked) : t.agrees a b = true ↔
    (t.node a).agreesAtHead (t.node b) = true ∧
    List.Forall₂ (fun c d => t.agrees c d = true) (t.node a).children (t.node b).children := by
  rw [agrees, linked.term_mk a, linked.term_mk b, Term.agrees_mk, Node.agreesAtHead_map,
    Node.children_map, Node.children_map, List.forall₂_map_left_iff, List.forall₂_map_right_iff]
  rfl

theorem Linked.agrees_iff_of_children (linked : t.Linked)
    (below :
      ∀ child ∈ (t.node a).children,
        ∀ d, t.agrees child d = true ↔ t.plain.term child = t.plain.term d) :
    t.agrees a b = true ↔ t.plain.term a = t.plain.term b := by
  rw [linked.agrees_step, linked.term_plain a, linked.term_plain b, Term.mk.injEq,
    Node.plain_map_eq_iff, ← List.forall₂_eq_eq_eq, List.forall₂_map_left_iff,
    List.forall₂_map_right_iff, List.forall₂_iff_zip, List.forall₂_iff_zip]
  apply and_congr_right
  intro head
  apply and_congr_right
  intro sameLength
  constructor
  · intro agree c d pair
    exact (below c (List.of_mem_zip pair).1 d).mp (agree pair)
  · intro same c d pair
    exact (below c (List.of_mem_zip pair).1 d).mpr (same pair)

theorem Linked.agrees_iff (linked : t.Linked) :
    t.agrees a b = true ↔ t.plain.term a = t.plain.term b := by
  by_cases allocated : t.Allocated a
  · induction a, allocated using linked.induction_children generalizing b with
    | step a allocated induction =>
      apply linked.agrees_iff_of_children
      intro child member d
      exact induction child (linked.mem_children.mp member)
  · apply linked.agrees_iff_of_children
    intro child member
    rw [node_of_not_allocated allocated] at member
    cases member

/-- The comparison of two parts of a tree decides whether they are the same plain term: node for
node the same kinds, operators, flags and names, and field for field the same children. It does not
see raw spellings and knows one NaN, but it tells zero from minus zero. -/
theorem Linked.agrees_decides (linked : t.Linked) :
    (∀ a b, t.agrees a b = true ↔ t.plain.term a = t.plain.term b) ∧
    (∀ id, t.plain.term id = .mk ((t.node id).plain.map t.plain.term)) ∧
    Equivalence (fun a b => t.agrees a b = true) ∧
    (∀ value other raw otherRaw,
    (Literal.string value raw).plain = (Literal.string other otherRaw).plain ↔
      value = other) ∧
    (∀ x y, (Literal.number x).plain = (Literal.number y).plain ↔
      x.toBits = y.toBits ∨ x.isNaN ∧ y.isNaN) ∧
    (Literal.number 0).plain ≠ (Literal.number (-0)).plain := by
  refine ⟨fun a b => linked.agrees_iff, linked.term_plain, ?_, by simp [Literal.plain],
    Literal.plain_number_eq_iff, ?_⟩
  · constructor
    · intro a
      exact agrees_of_term_eq rfl
    · intro a b agree
      exact linked.agrees_iff.mpr (linked.agrees_iff.mp agree).symm
    · intro a b c first second
      exact linked.agrees_iff.mpr ((linked.agrees_iff.mp first).trans (linked.agrees_iff.mp second))
  · rw [ne_eq, Literal.plain_number_eq_iff]
    decide +kernel

/-- The loops `for (; a;) ;` and `for (;; a) ;` have the same children and are different. Two
spellings of a string are the same. -/
theorem exists_agrees_decides : ∃ t : Tree, t.Linked ∧
    t.node ⟨2⟩ = .for_ none (some ⟨0⟩) none ⟨1⟩ ∧ t.node ⟨5⟩ = .for_ none none (some ⟨3⟩) ⟨4⟩ ∧
    t.agrees ⟨0⟩ ⟨3⟩ = true ∧ t.agrees ⟨1⟩ ⟨4⟩ = true ∧ t.agrees ⟨2⟩ ⟨5⟩ = false ∧
      t.node ⟨6⟩ = .literal (.string "a" (some "\"a\"")) ∧
      t.node ⟨7⟩ = .literal (.string "a" (some "\"\\x61\"")) ∧
      t.agrees ⟨6⟩ ⟨7⟩ = true ∧ t.agrees ⟨7⟩ ⟨6⟩ = true := by
  let t : Tree := ⟨#[⟨.identifier "a", some ⟨2⟩⟩, ⟨.empty, some ⟨2⟩⟩,
    ⟨.for_ none (some ⟨0⟩) none ⟨1⟩, none⟩, ⟨.identifier "a", some ⟨5⟩⟩, ⟨.empty, some ⟨5⟩⟩,
    ⟨.for_ none none (some ⟨3⟩) ⟨4⟩, none⟩, ⟨.literal (.string "a" (some "\"a\"")), none⟩,
    ⟨.literal (.string "a" (some "\"\\x61\"")), none⟩]⟩
  have linked : t.Linked := linked_of_checks (by decide)
  obtain ⟨decides, terms, equivalence, -⟩ := linked.agrees_decides
  have spellings : t.agrees ⟨6⟩ ⟨7⟩ = true := by
    rw [decides, terms ⟨6⟩, terms ⟨7⟩]
    rfl
  refine ⟨t, linked, rfl, rfl, ?_, ?_, ?_, rfl, rfl, spellings, equivalence.symm spellings⟩
  · rw [decides, terms ⟨0⟩, terms ⟨3⟩]
    rfl
  · rw [decides, terms ⟨1⟩, terms ⟨4⟩]
    rfl
  · rw [Bool.eq_false_iff, ne_eq, decides, terms ⟨2⟩, terms ⟨5⟩]
    intro same
    cases same

end Tree

end Unravel
