import Unravel.Syntax.Node

/-!
Closed syntax trees. A `Term` is a node whose children are terms; it is what a tree in the
store looks like once the handles are read through, and what a tree is built from.

Main statement: a child is smaller than its term, so a function can recurse on
`Term.children`.
-/

namespace Unravel

inductive Term where
  | mk (node : Node Term)

theorem sizeOf_lt_of_mem_toList {o : Option Term} {c : Term} (h : c ∈ o.toList) :
    sizeOf c < sizeOf o := by
  cases o with
  | none => simp at h
  | some d => simp_all

theorem Node.sizeOf_lt_of_mem_children {node : Node Term} {c : Term} (h : c ∈ node.children) :
    sizeOf c < sizeOf node := by
  have ofList {l : List Term} (h : c ∈ l) := List.sizeOf_lt_of_mem h
  have ofOption {o : Option Term} (h : c ∈ o.toList) := sizeOf_lt_of_mem_toList h
  have ofFunction (f : Function Term) :
      sizeOf f = 1 + sizeOf f.kind + sizeOf f.name + sizeOf f.params + sizeOf f.body
        + sizeOf f.isGenerator + sizeOf f.isAsync := by cases f; rfl
  have ofClassDef (d : ClassDef Term) :
      sizeOf d = 1 + sizeOf d.name + sizeOf d.superClass + sizeOf d.members
        + sizeOf d.isDeclaration := by cases d; rfl
  cases node <;>
    simp only [Node.children, List.mem_append, List.mem_cons, List.not_mem_nil, or_false,
      Node.program.sizeOf_spec] at h ⊢ <;>
    grind

namespace Term

def node : Term → Node Term
  | mk node => node

def children (t : Term) : List Term := t.node.children

def identifier (name : String) : Term := mk (.identifier name)

instance : Inhabited Term := ⟨mk .empty⟩

theorem sizeOf_lt_of_mem_children {t c : Term} (h : c ∈ t.children) : sizeOf c < sizeOf t := by
  cases t with
  | mk node =>
    have : sizeOf c < sizeOf node := Node.sizeOf_lt_of_mem_children h
    simp
    omega

/-- Equality of trees up to raw spellings of strings, and up to which NaN a literal holds. -/
def agrees (s t : Term) : Bool :=
  s.node.agreesAtHead t.node && s.children.length = t.children.length
    && (s.children.attach.zip t.children).all fun (⟨c, _⟩, d) => c.agrees d
termination_by sizeOf s
decreasing_by exact sizeOf_lt_of_mem_children (by assumption)

end Term

end Unravel
