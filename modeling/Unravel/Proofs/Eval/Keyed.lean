import Unravel.Proofs.Eval.Spelled

/-!
The values of expressions hold no object with a key twice (`Program.keyed_of_evaluateWithin`):
object literals set each key once, and all other values are primitive or made of parts of known
ones.
-/

namespace Unravel

open Value

namespace Value

variable {v : Value} {name : String} {entries : List (String × Value)} {items : List Value}

theorem mem_setEntry {entry : String × Value} (member : entry ∈ setEntry name v entries) :
    entry.2 = v ∨ entry ∈ entries := by
  induction entries with
  | nil =>
    rw [setEntry, List.mem_singleton] at member
    exact .inl (congrArg Prod.snd member)
  | cons head rest induction =>
    obtain ⟨key, other⟩ := head
    rw [setEntry] at member
    split at member
    · rw [List.mem_cons] at member
      exact member.imp (congrArg Prod.snd) (List.mem_cons_of_mem _)
    · rw [List.mem_cons] at member
      rcases member with rfl | member
      · exact .inr (List.mem_cons_self ..)
      · exact (induction member).imp_right (List.mem_cons_of_mem _)

theorem mem_keys_setEntry {key : String} :
    key ∈ (setEntry name v entries).map (·.1) ↔ key = name ∨ key ∈ entries.map (·.1) := by
  induction entries with
  | nil => simp [setEntry]
  | cons head rest induction =>
    obtain ⟨first, other⟩ := head
    rw [setEntry]
    split
    · rename_i same
      subst same
      simp
    · rw [List.map_cons, List.mem_cons, induction, List.map_cons, List.mem_cons]
      tauto

theorem nodup_keys_setEntry (distinct : (entries.map (·.1)).Nodup) :
    ((setEntry name v entries).map (·.1)).Nodup := by
  induction entries with
  | nil => simp [setEntry]
  | cons head rest induction =>
    obtain ⟨first, other⟩ := head
    rw [List.map_cons, List.nodup_cons] at distinct
    rw [setEntry]
    split
    · simpa using distinct
    · rename_i different
      rw [List.map_cons, List.nodup_cons, mem_keys_setEntry]
      exact ⟨fun same => same.elim different distinct.1, induction distinct.2⟩

theorem Keyed.setEntry (keyed : Keyed (.object entries)) (keyedValue : v.Keyed) :
    Keyed (.object (setEntry name v entries)) := by
  obtain ⟨distinct, each⟩ := keyed.of_mem_entries
  refine .object (nodup_keys_setEntry distinct) fun entry member => ?_
  rcases mem_setEntry member with same | member
  · rwa [same]
  · exact each entry member

theorem keyed_ofLiteral (value : Literal) : (ofLiteral value).Keyed := by
  cases value <;> exact .primitive rfl

theorem keyed_add (x y : Value) : (x.add y).Keyed := by
  rw [add]
  split <;> exact .primitive rfl

end Value

theorem keyed_of_map {α : Type} {o : Option α} {f : α → Value} {v : Value} (made : o.map f = some v)
    (primitive : ∀ a, (f a).isPrimitive = true) : v.Keyed := by
  obtain ⟨a, -, rfl⟩ := Option.map_eq_some_iff.mp made
  exact .primitive (primitive a)

theorem forall_of_mapM {α β : Type} {f : α → Option β} {l : List α} {items : List β}
    {P : β → Prop} (each : ∀ a ∈ l, ∀ v, f a = some v → P v) (made : l.mapM f = some items) :
    ∀ item ∈ items, P item := by
  induction l generalizing items with
  | nil =>
    cases made
    simp
  | cons a rest induction =>
    rw [List.forall_mem_cons] at each
    rw [List.mapM_cons] at made
    simp only [Option.bind_eq_bind, Option.bind_eq_some_iff, Option.pure_def,
      Option.some.injEq] at made
    obtain ⟨value, first, others, found, rfl⟩ := made
    rw [List.forall_mem_cons]
    exact ⟨each.1 value first, induction each.2 found⟩

theorem UnaryOp.keyed_of_result? {operator : UnaryOp} {x v : Value}
    (made : operator.result? x = some v) :
    v.Keyed := by
  cases operator <;> simp only [UnaryOp.result?, Option.some.injEq, reduceCtorEq] at made <;>
    subst made <;> exact .primitive rfl

theorem BinaryOp.keyed_of_result? {operator : BinaryOp} {x y v : Value}
    (made : operator.result? x y = some v) : v.Keyed := by
  cases operator <;> simp only [BinaryOp.result?, Option.some.injEq, reduceCtorEq] at made
  case add => exact made ▸ keyed_add x y
  case eq | notEq | strictEq | strictNotEq => exact keyed_of_map made fun _ => rfl
  all_goals exact made ▸ .primitive rfl

namespace Method

variable {s : String} {name key : String} {args items : List Value} {v : Value}

theorem keyed_of_unitsValue? {units : List UInt16} (made : unitsValue? units = some v) : v.Keyed :=
  keyed_of_map made fun _ => rfl

theorem exists_of_lookup {entries : List (String × Value)} (found : entries.lookup key = some v) :
    ∃ entry ∈ entries, entry.2 = v := by
  induction entries with
  | nil => cases found
  | cons head rest induction =>
    obtain ⟨first, value⟩ := head
    rw [List.lookup_cons] at found
    split at found
    · exact ⟨_, List.mem_cons_self .., Option.some.inj found⟩
    · obtain ⟨entry, member, same⟩ := induction found
      exact ⟨entry, List.mem_cons_of_mem _ member, same⟩

theorem keyed_of_property? {target : Value} (keyed : target.Keyed)
    (made : property? target key = some v) :
    v.Keyed := by
  cases target with
  | string text =>
    simp only [property?] at made
    split at made
    · exact Option.some.inj made ▸ .primitive rfl
    · obtain ⟨i, -, made⟩ := Option.bind_eq_some_iff.mp made
      split at made
      · exact keyed_of_unitsValue? made
      · exact Option.some.inj made ▸ .primitive rfl
  | array items =>
    simp only [property?] at made
    split at made
    · exact Option.some.inj made ▸ .primitive rfl
    · obtain ⟨i, -, made⟩ := Option.bind_eq_some_iff.mp made
      rw [Option.pure_def, Option.some.injEq] at made
      rw [← made]
      cases found : items[i]? with
      | none => exact .primitive rfl
      | some item => exact keyed.of_mem item (List.mem_of_getElem? found)
  | object entries =>
    obtain ⟨entry, member, rfl⟩ := exists_of_lookup made
    exact keyed.of_mem_entries.2 entry member
  | _ => cases made

theorem keyed_of_limited {parts : List Value} (each : ∀ part ∈ parts, part.Keyed)
    (made : some (Value.array (match given? args 1 with
      | some limit => parts.take limit.toUInt32.toNat
      | none => parts)) = some v) : v.Keyed := by
  rw [← Option.some.inj made]
  refine .array fun item member => each item ?_
  split at member
  · exact List.mem_of_mem_take member
  · exact member

theorem keyed_of_split? (made : split? s args = some v) : v.Keyed := by
  rw [split?] at made
  cases given : given? args 0 with
  | none =>
    rw [given] at made
    refine keyed_of_limited ?_ made
    rw [List.forall_mem_singleton]
    exact .primitive rfl
  | some separator =>
    rw [given] at made
    obtain ⟨parts, found, made⟩ := Option.bind_eq_some_iff.mp made
    exact keyed_of_limited (forall_of_mapM (fun _ _ _ => keyed_of_unitsValue?) found) made

theorem keyed_of_repeat? (made : repeat? s args = some v) : v.Keyed := by
  unfold repeat? at made
  grind [Keyed, isPrimitive]

theorem keyed_of_replace? (made : replace? s args = some v) : v.Keyed := by
  rw [replace?] at made
  simp only [Option.bind_eq_bind, Option.bind_eq_some_iff] at made
  obtain ⟨a, -, b, -, c, -, made⟩ := made
  split at made
  · cases made
  · split at made <;> exact Option.some.inj made ▸ .primitive rfl

theorem keyed_of_string? (made : string? s name args = some v) : v.Keyed := by
  unfold string? at made
  split at made
  case h_3 =>
    dsimp only at made
    split at made
    · exact keyed_of_unitsValue? made
    · exact Option.some.inj made ▸ .primitive rfl
  all_goals first
    | exact Option.some.inj made ▸ .primitive rfl
    | exact keyed_of_unitsValue? made
    | exact keyed_of_split? made
    | exact keyed_of_repeat? made
    | exact keyed_of_replace? made
    | cases made

theorem keyed_of_number? {x : Float} (made : number? x name args = some v) : v.Keyed := by
  unfold number? at made
  split at made
  · dsimp only at made
    split at made
    · cases made
    · exact keyed_of_map made fun _ => rfl
  · dsimp only at made
    split at made
    · cases made
    · exact keyed_of_map made fun _ => rfl
  · exact Option.some.inj made ▸ .primitive rfl
  · cases made

theorem keyed_of_array? (keyed : ∀ item ∈ items, item.Keyed) (keyedArgs : ∀ arg ∈ args, arg.Keyed)
    (made : array? items name args = some v) : v.Keyed := by
  unfold array? at made
  split at made
  · exact Option.some.inj made ▸ .primitive rfl
  · exact Option.some.inj made ▸ .primitive rfl
  · exact keyed_of_map made fun _ => rfl
  · exact keyed_of_map made fun _ => rfl
  · rw [← Option.some.inj made]
    exact .array fun item member => keyed item (List.mem_of_mem_take (List.mem_of_mem_drop member))
  · rw [← Option.some.inj made]
    refine .array ?_
    clear made
    induction args generalizing items with
    | nil => exact keyed
    | cons arg rest induction =>
      rw [List.forall_mem_cons] at keyedArgs
      refine induction (fun item member => ?_) keyedArgs.2
      rw [List.mem_append] at member
      refine member.elim (keyed item) fun member => ?_
      cases arg with
      | array inner => exact keyedArgs.1.of_mem item member
      | _ =>
        simp only [asArray?, Option.getD_none, List.mem_singleton] at member
        exact member ▸ keyedArgs.1
  · rw [← Option.some.inj made]
    exact .array fun item member => keyed item (List.mem_reverse.mp member)
  · cases made

theorem keyed_of_call? {receiver : Value} (keyed : receiver.Keyed)
    (keyedArgs : ∀ arg ∈ args, arg.Keyed) (made : call? receiver name args = some v) : v.Keyed := by
  cases receiver with
  | string text => exact keyed_of_string? made
  | number x => exact keyed_of_number? made
  | bool b =>
    simp only [call?] at made
    split at made
    · exact Option.some.inj made ▸ .primitive rfl
    · cases made
  | array items => exact keyed_of_array? keyed.of_mem keyedArgs made
  | _ => cases made

end Method

namespace Builtin

variable {name : String} {args : List Value} {v : Value}

theorem keyed_of_global? (made : global? name args = some v) : v.Keyed := by
  unfold global? at made
  split at made
  all_goals first
    | exact Option.some.inj made ▸ .primitive rfl
    | cases made

theorem keyed_of_number? (made : number? name args = some v) : v.Keyed := by
  unfold number? at made
  split at made
  all_goals first
    | exact Option.some.inj made ▸ .primitive rfl
    | exact keyed_of_global? made
    | cases made

theorem keyed_of_string? (made : string? name args = some v) : v.Keyed := by
  unfold string? at made
  split at made
  · exact keyed_of_map made fun _ => rfl
  · cases made

theorem keyed_of_math? (made : math? name args = some v) : v.Keyed := keyed_of_map made fun _ => rfl

end Builtin

/-! ### Evaluation -/

theorem keyed_of_globalValue? {name : String} {v : Value} (made : globalValue? name = some v) :
    v.Keyed := by
  unfold globalValue? at made
  split at made
  all_goals first
    | exact Option.some.inj made ▸ .primitive rfl
    | cases made

namespace Program

variable {p : Program} {eval : NodeId → Option Value} {id : NodeId} {v : Value} {limit : Nat}

theorem keyed_of_foldlM {properties : List NodeId} {known entries : List (String × Value)}
    (each : ∀ part v, eval part = some v → v.Keyed) (keyed : Keyed (.object known))
    (made : properties.foldlM (p.evaluateEntry eval) known = some entries) :
    Keyed (.object entries) := by
  induction properties generalizing known with
  | nil => exact Option.some.inj made ▸ keyed
  | cons property rest induction =>
    rw [List.foldlM_cons] at made
    obtain ⟨next, isNext, made⟩ := Option.bind_eq_some_iff.mp made
    refine induction ?_ made
    unfold evaluateEntry at isNext
    split at isNext
    · obtain ⟨name, -, isNext⟩ := Option.bind_eq_some_iff.mp isNext
      obtain ⟨value, isValue, isNext⟩ := Option.bind_eq_some_iff.mp isNext
      exact Option.some.inj isNext ▸ keyed.setEntry (each _ value isValue)
    · cases isNext

theorem keyed_of_evaluateStep (each : ∀ part v, eval part = some v → v.Keyed)
    (made : p.evaluateStep eval id = some v) : v.Keyed := by
  unfold evaluateStep at made
  split at made
  · exact Option.some.inj made ▸ keyed_ofLiteral _
  · split at made
    · exact keyed_of_globalValue? made
    · simp only [Option.bind_eq_bind, Option.bind_eq_some_iff] at made
      obtain ⟨init, -, value, isValue, made⟩ := made
      split at made
      · exact Option.some.inj made ▸ each _ value isValue
      · cases made
  · obtain ⟨items, found, made⟩ := Option.bind_eq_some_iff.mp made
    exact Option.some.inj made ▸ .array (forall_of_mapM (fun part _ => each part) found)
  · obtain ⟨entries, found, made⟩ := Option.bind_eq_some_iff.mp made
    exact Option.some.inj made ▸ keyed_of_foldlM each (.object (by simp) (by simp)) found
  · split at made
    · exact Option.some.inj made ▸ .primitive rfl
    · obtain ⟨x, -, made⟩ := Option.bind_eq_some_iff.mp made
      exact UnaryOp.keyed_of_result? made
  · simp only [Option.bind_eq_bind, Option.bind_eq_some_iff] at made
    obtain ⟨x, -, y, -, made⟩ := made
    exact BinaryOp.keyed_of_result? made
  · obtain ⟨x, isLeft, made⟩ := Option.bind_eq_some_iff.mp made
    split at made
    · exact Option.some.inj made ▸ each _ x isLeft
    · exact each _ v made
  · obtain ⟨x, -, made⟩ := Option.bind_eq_some_iff.mp made
    split at made <;> exact each _ v made
  · obtain ⟨items, found, made⟩ := Option.bind_eq_some_iff.mp made
    exact forall_of_mapM (fun part _ => each part) found v (List.mem_of_getLast? made)
  · obtain ⟨key, -, made⟩ := Option.bind_eq_some_iff.mp made
    split at made
    · exact keyed_of_map made fun _ => rfl
    · exact keyed_of_map made fun _ => rfl
    · cases made
    · obtain ⟨x, isBase, made⟩ := Option.bind_eq_some_iff.mp made
      exact Method.keyed_of_property? (each _ x isBase) made
  · obtain ⟨args, found, made⟩ := Option.bind_eq_some_iff.mp made
    have keyedArgs := forall_of_mapM (fun part _ => each part) found
    split at made
    · split at made
      · exact Builtin.keyed_of_global? made
      · cases made
    · obtain ⟨method, -, made⟩ := Option.bind_eq_some_iff.mp made
      split at made
      · exact Builtin.keyed_of_math? made
      · exact Builtin.keyed_of_string? made
      · exact Builtin.keyed_of_number? made
      · obtain ⟨x, isBase, made⟩ := Option.bind_eq_some_iff.mp made
        exact Method.keyed_of_call? (each _ x isBase) keyedArgs made
    · cases made
  · cases made

theorem keyed_of_evaluateWithin (made : p.evaluateWithin limit id = some v) : v.Keyed := by
  induction limit generalizing id v with
  | zero => cases made
  | succ limit induction =>
    rw [evaluateWithin_succ] at made
    exact keyed_of_evaluateStep (fun part value found => induction found) made

end Program

end Unravel
