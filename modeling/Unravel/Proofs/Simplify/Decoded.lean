import Unravel.Proofs.Program.Relocated
import Unravel.Proofs.Simplify.Shown
import Unravel.Proofs.Text.Escape

/-!
What decoding strings does. Every string literal is put in order on its own (`Escapes.Tidied`): its
value is decoded exactly if that leaves no escape to decode, and its spelling goes if it is not the
one that the value would be printed with. All literals of a program are reached, since each one
stays where it is until its turn comes (`Escapes.Progress`), and nothing else changes
(`Escapes.strings_decoded`). What has been put in order is left alone, so a second run finds nothing
to do.
-/

namespace Unravel

open SimplifyM Text

namespace Escapes

variable {p q : Program} {c : Context} {id : NodeId} {rest : List NodeId} {now : NodeId → NodeId}
  {n : Node NodeId} {value text : String} {raw : Option String}

/-! ### One literal -/

/--
A value has an escape and is decoded, as the contents of a JSON string, to a text without one. -/
structure Decodable (value text : String) : Prop where
  escaped : ContainsEscape value.toList
  contents : Contents value.toList (units text)
  plain : ¬ContainsEscape text.toList

/-- What becomes of a string literal: its value is decoded if it can be, and its spelling is kept if
the value is and no backslash stands in it. -/
inductive Tidied (value : String) (raw : Option String) : Literal → Prop where
  | decoded {text : String} : Decodable value text → Tidied value raw (.string text none)
  | dropped {spelling : String} :
      (∀ text, ¬Decodable value text) → raw = some spelling → '\\' ∈ spelling.toList →
      Tidied value raw (.string value none)
  | kept :
      (∀ text, ¬Decodable value text) → (∀ spelling, raw = some spelling → '\\' ∉ spelling.toList) →
      Tidied value raw (.string value raw)

theorem decoded?_eq_some_iff : decoded? value = some text ↔ Decodable value text := by
  have unescaped : unescape? value = some text ↔ Contents value.toList (units text) := by
    simp only [unescape?, Option.bind_eq_some_iff, ofUnits?_eq_some_iff,
      unescapedUnits?_eq_some_iff, exists_eq_right]
  rw [decoded?, Option.ite_none_right_eq_some, Option.filter_eq_some_iff, unescaped,
    Bool.not_eq_true', ← Bool.not_eq_true, hasUnicodeEscape_iff, hasUnicodeEscape_iff]
  constructor
  · rintro ⟨escaped, contents, plain⟩
    exact ⟨escaped, contents, plain⟩
  · rintro ⟨escaped, contents, plain⟩
    exact ⟨escaped, contents, plain⟩

theorem decoded?_eq_none_iff : decoded? value = none ↔ ∀ text, ¬Decodable value text := by
  simp only [Option.eq_none_iff_forall_ne_some, ne_eq, decoded?_eq_some_iff]

theorem Decodable.unique {other : String} (first : Decodable value text)
    (second : Decodable value other) :
    text = other :=
  Option.some.inj ((decoded?_eq_some_iff.mpr first).symm.trans (decoded?_eq_some_iff.mpr second))

theorem Decodable.decoded? (decodable : Decodable value text) : Escapes.decoded? text = none :=
  decoded?_eq_none_iff.mpr fun _ again => decodable.plain again.escaped

def tidied (n : Node NodeId) : Node NodeId :=
  match plan? n with
  | some (value, _) => .literal (.string value none)
  | none => n

theorem tidied_of_no_string (noString : n.string? = none) : tidied n = n := by
  have unplanned : plan? n = none := by
    unfold plan?
    split
    · cases noString
    · rfl
  rw [tidied, unplanned]

theorem exists_tidied_literal (value : String) (raw : Option String) :
    ∃ l, tidied (.literal (.string value raw)) = .literal l ∧ Tidied value raw l := by
  rw [tidied, plan?]
  cases found : decoded? value with
  | some text => exact ⟨_, rfl, .decoded (decoded?_eq_some_iff.mp found)⟩
  | none =>
    have stays := decoded?_eq_none_iff.mp found
    cases raw with
    | none =>
      refine ⟨_, rfl, .kept stays ?_⟩
      rintro _ ⟨⟩
    | some spelling =>
      rw [Option.any_some, String.contains_char_eq]
      by_cases member : '\\' ∈ spelling.toList
      · rw [decide_eq_true member]
        exact ⟨_, rfl, .dropped stays rfl member⟩
      · rw [decide_eq_false member]
        refine ⟨_, rfl, .kept stays ?_⟩
        rintro _ ⟨⟩
        exact member

theorem plan?_unspelled (plain : decoded? value = none) :
    plan? (.literal (.string value none)) = none := by
  rw [plan?, plain]
  rfl

theorem plan?_tidied (n : Node NodeId) : plan? (tidied n) = none := by
  rw [tidied]
  cases planned : plan? n with
  | none => exact planned
  | some plan =>
    obtain ⟨value, raw, rfl⟩ := exists_of_plan? planned
    rw [plan?] at planned
    cases found : decoded? value with
    | some text =>
      rw [found] at planned
      cases planned
      exact plan?_unspelled (decoded?_eq_some_iff.mp found).decoded?
    | none =>
      rw [found, Option.ite_none_right_eq_some] at planned
      obtain ⟨-, ⟨⟩⟩ := planned
      exact plan?_unspelled found

theorem plan?_map (f : NodeId → NodeId) (n : Node NodeId) : plan? (n.map f) = plan? n := by
  cases planned : plan? n with
  | none =>
    rw [Option.eq_none_iff_forall_ne_some] at planned ⊢
    exact fun plan found => planned plan (plan?_of_tag (Node.tag_map f n).symm found)
  | some plan => exact plan?_of_tag (Node.tag_map f n) planned

/-! ### All literals of a program -/

/-- The strings of a program have been put in order but for those that are still to come. Nothing
else has changed, and what has not been reached stands where it stood. -/
structure Progress (p q : Program) (rest : List NodeId) (now : NodeId → NodeId) : Prop where
  rooted : q.Rooted
  relocated : p.Relocated q (fun id => if id ∈ rest then p.node id else tidied (p.node id)) now
  kept : ∀ {id}, id ∈ rest ∨ (p.node id).string? = none → now id = id
  table : p.stale = false → q.scopes = p.scopes ∧ q.stale = false

theorem step_of_none (planned : plan? (p.node id) = none) (c : Context) :
    step id ⟨p, c⟩ = .ok false ⟨p, c⟩ := by
  rw [step, program_bind]
  dsimp only
  rw [planned]
  rfl

theorem exists_step_of_some {decoded : Bool} {after : Program} {placed : NodeId} {grown : Tree}
    (planned : plan? (p.node id) = some (text, decoded))
    (isMade : Tree.alloc (.literal (.string text none)) p.tree = (placed, grown))
    (done : Program.replace { p with tree := grown } id placed = .ok (placed, after))
    (c : Context) :
    ∃ c', step id ⟨p, c⟩ = .ok true ⟨after, c'⟩ := by
  have isMade : Tree.stringLiteral text p.tree = (placed, grown) := isMade
  rw [step, program_bind]
  dsimp only
  rw [planned]
  dsimp only
  rw [build_bind]
  dsimp only
  rw [isMade]
  cases decoded with
  | true =>
    obtain ⟨c', recorded⟩ := replaceAndRecord_eq (c := c) .stringDecoded "" done
    exact ⟨c', bind_of_ok _ recorded⟩
  | false =>
    have replaced : SimplifyM.replace id placed ⟨{ p with tree := grown }, c⟩ =
        .ok placed ⟨after, c⟩ := by
      rw [SimplifyM.replace, edit, done]
    exact ⟨c, bind_of_ok _ (discard_of_ok replaced)⟩

theorem exists_step (rooted : p.Rooted) (member : id ∈ p.nodes) (c : Context) :
    ∃ changed after c' next, step id ⟨p, c⟩ = .ok changed ⟨after, c'⟩ ∧ after.Rooted ∧
      p.Relocated after (fun other => if other = id then tidied (p.node id) else p.node other)
        next ∧
      (∀ other, other ≠ id → next other = other) ∧
      (p.stale = false → after.scopes = p.scopes ∧ after.stale = false) := by
  cases planned : plan? (p.node id) with
  | none =>
    refine ⟨false, p, c, fun id => id, step_of_none planned c, rooted,
      (Program.Relocated.refl p).congr fun {other} _ => ?_, fun _ _ => rfl,
      fun fresh => ⟨rfl, fresh⟩⟩
    split
    · rename_i same
      rw [tidied, planned, same]
    · rfl
  | some plan =>
    obtain ⟨text, decoded⟩ := plan
    obtain ⟨value, raw, shape⟩ := exists_of_plan? planned
    obtain ⟨after, placed, grown, isMade, done, afterRooted, relocated, table⟩ :=
      rooted.exists_relocated member shape (.string text none)
    obtain ⟨c', ran⟩ := exists_step_of_some planned isMade done c
    have isTidied : tidied (p.node id) = .literal (.string text none) := by rw [tidied, planned]
    rw [← isTidied] at relocated
    exact ⟨true, after, c', _, ran, afterRooted, relocated, fun _ => Node.exchange_of_ne, table⟩

theorem Progress.start (rooted : p.Rooted) (items : List NodeId)
    (strings : ∀ {id}, id ∈ p.nodes → id ∉ items → (p.node id).string? = none) :
    Progress p p items fun id => id where
  rooted := rooted
  relocated := (Program.Relocated.refl p).congr fun {id} member => by
    split
    · rfl
    · rename_i other
      exact (tidied_of_no_string (strings member other)).symm
  kept _ := rfl
  table fresh := ⟨rfl, fresh⟩

theorem exists_shape_of_string? (isString : n.string?.isSome = true) :
    ∃ value raw, n = .literal (.string value raw) := by
  unfold Node.string? at isString
  split at isString
  · exact ⟨_, _, rfl⟩
  · cases isString

theorem Progress.exists_next (progress : Progress p q (id :: rest) now) (fresh : id ∉ rest)
    (member : id ∈ p.nodes) (isString : (p.node id).string?.isSome = true) (c : Context) :
    ∃ changed after c' next,
      step id ⟨q, c⟩ = .ok changed ⟨after, c'⟩ ∧ Progress p after rest next := by
  obtain ⟨value, raw, shape⟩ := exists_shape_of_string? isString
  have stays : now id = id := progress.kept (.inl (List.mem_cons_self ..))
  have same : q.node id = p.node id := by
    have here := progress.relocated.node member
    rw [stays, if_pos (List.mem_cons_self ..), shape] at here
    rw [here, shape]
    rfl
  have present : id ∈ q.nodes := stays ▸ progress.relocated.mem_nodes member
  obtain ⟨changed, after, c', next, ran, rooted, relocated, elsewhere, table⟩ :=
    exists_step progress.rooted present c
  refine ⟨changed, after, c', fun id => next (now id), ran, rooted,
    progress.relocated.trans relocated ?_, ?_, ?_⟩
  · intro other otherMember
    by_cases isSame : other = id
    · obtain ⟨l, isLiteral, -⟩ := exists_tidied_literal value raw
      rw [isSame, if_pos stays, if_neg fresh, same, shape, isLiteral]
      rfl
    · have different : now other ≠ id := fun isId =>
        isSame (progress.relocated.injective progress.rooted otherMember member
          (isId.trans stays.symm))
      have ahead : other ∈ id :: rest ↔ other ∈ rest := by rw [List.mem_cons, or_iff_right isSame]
      rw [if_neg different, progress.relocated.node otherMember, Node.map_map]
      simp only [ahead]
  · intro other settled
    have different : other ≠ id := by
      rintro rfl
      rcases settled with toCome | noString
      · exact fresh toCome
      · rw [noString] at isString
        cases isString
    rw [progress.kept (settled.imp_left (List.mem_cons_of_mem id)), elsewhere other different]
  · intro isFresh
    obtain ⟨scopes, stillFresh⟩ := progress.table isFresh
    obtain ⟨last, lastFresh⟩ := table stillFresh
    exact ⟨last.trans scopes, lastFresh⟩

theorem Progress.exists_anyChange (progress : Progress p q rest now) (distinct : rest.Nodup)
    (strings : ∀ id ∈ rest, id ∈ p.nodes ∧ (p.node id).string?.isSome = true) (c : Context) :
    ∃ changed w now, anyChange rest step ⟨q, c⟩ = .ok changed w ∧ Progress p w.program [] now := by
  induction rest generalizing q c now with
  | nil => exact ⟨false, ⟨q, c⟩, now, rfl, progress⟩
  | cons id rest induction =>
    rw [List.nodup_cons] at distinct
    rw [List.forall_mem_cons] at strings
    obtain ⟨first, mid, c', next, stepped, progress⟩ := progress.exists_next distinct.1
      strings.1.1 strings.1.2 c
    obtain ⟨others, w, last, ran, progress⟩ := induction progress distinct.2 strings.2 c'
    refine ⟨first || others, w, last, ?_, progress⟩
    rw [anyChange_cons, bind_of_ok _ stepped, bind_of_ok _ ran]
    rfl

theorem run_of_settled (settled : ∀ id ∈ p.nodes, plan? (p.node id) = none) (c : Context) :
    run ⟨p, c⟩ = .ok false ⟨p, c⟩ := by
  have idle (items : List NodeId) (within : ∀ id ∈ items, id ∈ p.nodes) :
      anyChange items step ⟨p, c⟩ = .ok false ⟨p, c⟩ := by
    induction items with
    | nil => rfl
    | cons id items induction =>
      rw [List.forall_mem_cons] at within
      rw [anyChange_cons, bind_of_ok _ (step_of_none (settled id within.1) c),
        bind_of_ok _ (induction within.2)]
      rfl
  rw [run, nodesWhere_bind]
  exact idle _ fun id member => (List.mem_filter.mp member).1

/-- Decoding strings never fails. Every string literal is put in order, nothing else changes, and a
second run finds nothing to do. -/
theorem strings_decoded (rooted : p.Rooted) (c : Context) : ∃ changed w now,
    Rule.run .unicodeDecode ⟨p, c⟩ = .ok changed w ∧
      w.program.root = p.root ∧ w.program.nodes = p.nodes.map now ∧
      (∀ id ∈ p.nodes, ∀ value raw, p.node id = .literal (.string value raw) →
        ∃ literal, w.program.node (now id) = .literal literal ∧ Tidied value raw literal) ∧
      (∀ id ∈ p.nodes, (p.node id).string? = none →
        now id = id ∧ w.program.node id = (p.node id).map now) ∧
      (p.stale = false → w.program.scopes = p.scopes ∧ w.program.stale = false) ∧
      ∀ c', Rule.run .unicodeDecode ⟨w.program, c'⟩ = .ok false ⟨w.program, c'⟩ := by
  have distinct : p.nodes.Nodup := rooted.linked.nodup_descendants rooted.isTop.allocated
  obtain ⟨changed, w, now, ran, progress⟩ :=
    (Progress.start rooted (p.nodes.filter fun id => (p.node id).string?.isSome)
      fun {id} member other => by simpa [member] using other).exists_anyChange (distinct.filter _)
      (fun id member => List.mem_filter.mp member) c
  have relocated := progress.relocated.congr fun {id} _ => if_neg (List.not_mem_nil (a := id))
  refine ⟨changed, w, now, ran, relocated.root, relocated.nodes, ?_, ?_, progress.table, ?_⟩
  · intro id member value raw shape
    obtain ⟨l, isLiteral, isTidied⟩ := exists_tidied_literal value raw
    refine ⟨l, ?_, isTidied⟩
    rw [relocated.node member, shape, isLiteral]
    rfl
  · intro id member noString
    have stays := progress.kept (.inr noString)
    have here := relocated.node member
    rw [stays, tidied_of_no_string noString] at here
    exact ⟨stays, here⟩
  · refine fun c' => run_of_settled (fun id member => ?_) c'
    rw [relocated.nodes] at member
    obtain ⟨before, isBefore, rfl⟩ := List.mem_map.mp member
    rw [relocated.node isBefore, plan?_map]
    exact plan?_tidied _

/-- A program that is the string `\u0048i` and nothing else. -/
def greeting : Tree :=
  ⟨#[⟨.literal (.string "\\u0048i" none), some ⟨1⟩⟩, ⟨.expressionStatement ⟨0⟩, some ⟨2⟩⟩,
    ⟨.program [⟨1⟩], none⟩]⟩

theorem exists_strings_decoded :
    ∃ (p : Program) (changed : Bool) (w : Workspace) (now : NodeId → NodeId),
      Program.ofTree greeting ⟨2⟩ = .ok p ∧ p.Rooted ∧
        Rule.run .unicodeDecode ⟨p, default⟩ = .ok changed w ∧
          w.program.node (now ⟨0⟩) = .literal (.string "Hi" none) ∧
          w.program.scopes = p.scopes := by
  obtain ⟨scopes, made, steady⟩ := Program.exists_steady greeting ⟨2⟩
    (Tree.linked_of_checks (by decide)) ⟨by decide, by decide⟩
    (Tree.wellBound_of_bindsWell (by decide)) rfl
  obtain ⟨changed, w, now, ran, -, -, strings, -, table, -⟩ :=
    strings_decoded steady.sound.rooted default
  obtain ⟨l, isLiteral, isTidied⟩ := strings ⟨0⟩ (show ⟨0⟩ ∈ greeting.descendants ⟨2⟩ by decide) _ _
    rfl
  have decodable : Decodable "\\u0048i" "Hi" := decoded?_eq_some_iff.mp (by decide +kernel)
  refine ⟨_, changed, w, now, made, steady.sound.rooted, ran, ?_, (table rfl).1⟩
  rw [isLiteral]
  cases isTidied with
  | decoded other => rw [other.unique decodable]
  | dropped stays => exact absurd decodable (stays _)
  | kept stays => exact absurd decodable (stays _)

end Escapes

end Unravel
