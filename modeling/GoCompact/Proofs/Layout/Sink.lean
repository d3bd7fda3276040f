import GoCompact.Proofs.Layout.Emitted

namespace GoCompact

namespace Sink

-- A sink without a limit takes every write.
theorem writeAll_unlimited (taken ws : List Write) :
    writeAll ⟨taken, none⟩ ws = (⟨ws.reverse ++ taken, none⟩, none) := by
  induction ws generalizing taken with
  | nil => rfl
  | cons w ws ih =>
      rw [List.reverse_cons, List.append_assoc]
      exact ih (w :: taken)

-- A sink with a limit takes the first writes, and refuses the next one.
theorem writeAll_limited (taken ws : List Write) (n : Nat) :
    writeAll ⟨taken, some n⟩ ws =
      (⟨(ws.take n).reverse ++ taken, some (n - ws.length)⟩,
        if ws.length ≤ n then none else some .sinkClosed) := by
  induction ws generalizing taken n with
  | nil => simp [writeAll]
  | cons w ws ih =>
      cases n with
      | zero => simp [writeAll, write]
      | succ n =>
          rw [writeAll]
          simp only [write, ih, List.take_succ_cons, List.reverse_cons, List.append_assoc,
            List.length_cons, Nat.add_le_add_iff_right, Nat.add_sub_add_right]
          rfl

theorem writeAll_append (s : Sink) (ws vs : List Write) :
    s.writeAll (ws ++ vs) =
      match s.writeAll ws with
      | (s, none) => s.writeAll vs
      | (s, some fault) => (s, some fault) := by
  induction ws generalizing s with
  | nil => rfl
  | cons w ws ih =>
      rw [List.cons_append, writeAll, writeAll]
      cases s.write w with
      | ok s => exact ih s
      | error fault => rfl

-- One emission after another is carried out one after another. What comes after a fault, be it of the
-- rules or of the sink, is not carried out.
theorem receive_append (s : Sink) (a b : Emission) :
    s.receive (a ++ b) =
      match s.receive a with
      | (s, none) => s.receive b
      | (s, some fault) => (s, some fault) := by
  cases hending : a.ending with
  | some f =>
      rw [Emission.append_of_ending hending, receive, hending]
      rcases s.writeAll a.made with ⟨s, _ | fault⟩ <;> rfl
  | none =>
      rw [Emission.append_eq hending]
      simp only [receive, writeAll_append, hending]
      rcases s.writeAll a.made with ⟨s, _ | fault⟩ <;> rfl

-- The rules carried out on a sink: each text is written when its rule comes to it, a fault of the sink is
-- met there, and nothing is done after a fault.
inductive Carries : Sink → Emission → Sink → Option RenderFault → Prop
  | nothing {s : Sink} : Carries s .nothing s none
  | write {s s' : Sink} {w : Write} (h : s.write w = .ok s') : Carries s ⟨[w], none⟩ s' none
  | refused {s : Sink} {w : Write} {fault : RenderFault} (h : s.write w = .error fault) :
      Carries s ⟨[w], none⟩ s (some fault)
  | stop {s : Sink} {fault : RenderFault} : Carries s (.stop fault) s (some fault)
  | append {s s' s'' : Sink} {a b : Emission} {ending : Option RenderFault}
      (ha : Carries s a s' none) (hb : Carries s' b s'' ending) : Carries s (a ++ b) s'' ending
  | cut {s s' : Sink} {a b : Emission} {fault : RenderFault} (ha : Carries s a s' (some fault)) :
      Carries s (a ++ b) s' (some fault)

variable {s s' : Sink} {e : Emission} {ending : Option RenderFault}

theorem Carries.receive_eq (h : Carries s e s' ending) : s.receive e = (s', ending) := by
  induction h with
  | nothing => rfl
  | write h => simp [receive, writeAll, h]
  | refused h => simp [receive, writeAll, h]
  | stop => rfl
  | append _ _ iha ihb =>
      rw [receive_append, iha]
      exact ihb
  | cut _ ih => rw [receive_append, ih]

-- Every emission is carried out in this way, one write after the other.
theorem carries_receive (s : Sink) (e : Emission) : Carries s e (s.receive e).1 (s.receive e).2 := by
  obtain ⟨made, ending⟩ := e
  induction made generalizing s with
  | nil =>
      cases ending with
      | none => exact .nothing
      | some fault => exact .stop
  | cons w ws ih =>
      change Carries s (⟨[w], none⟩ ++ ⟨ws, ending⟩) (s.receive (⟨[w], none⟩ ++ ⟨ws, ending⟩)).1
        (s.receive (⟨[w], none⟩ ++ ⟨ws, ending⟩)).2
      rw [receive_append]
      cases hw : s.write w with
      | ok s' =>
          have hfirst : Carries s ⟨[w], none⟩ s' none := .write hw
          rw [hfirst.receive_eq]
          exact hfirst.append (ih s')
      | error fault =>
          have hfirst : Carries s ⟨[w], none⟩ s (some fault) := .refused hw
          rw [hfirst.receive_eq]
          exact hfirst.cut

-- What a sink receives is what comes of carrying out the rules on it.
theorem carries_iff : Carries s e s' ending ↔ s.receive e = (s', ending) := by
  refine ⟨Carries.receive_eq, fun h => ?_⟩
  have hcarries := carries_receive s e
  rwa [h] at hcarries

end Sink

namespace Emission

-- An emission that does not end with the fault of a sink.
def Proper (e : Emission) : Prop := e.ending ≠ some .sinkClosed

variable {a b : Emission} {fault : RenderFault} {condition : Bool}

@[simp]
theorem proper_nothing : nothing.Proper := nofun

@[simp]
theorem proper_write (s : Text) : (write s).Proper := nofun

@[simp]
theorem proper_writeText (t : Tree) : (writeText t).Proper := by
  unfold writeText
  split <;> nofun

@[simp]
theorem proper_stop : (stop fault).Proper ↔ fault ≠ .sinkClosed := by simp [Proper, stop]

@[simp]
theorem proper_unsupported (site : Site) (t : Tree) : (unsupported site t).Proper := by
  unfold unsupported
  split <;> simp

@[simp]
theorem proper_append : (a ++ b).Proper ↔ a.Proper ∧ (a.ending = none → b.Proper) := by
  cases hending : a.ending with
  | none => simp [Proper, append_eq hending, hending]
  | some f => simp [append_of_ending hending]

@[simp]
theorem proper_when : (when condition a).Proper ↔ (condition = true → a.Proper) := by
  cases condition <;> simp [when]

@[simp]
theorem proper_ite {p : Prop} [Decidable p] :
    (if p then a else b).Proper ↔ (p → a.Proper) ∧ (¬p → b.Proper) := by
  split <;> simp_all

theorem proper_separated {separator : Text} {es : List Emission} (h : ∀ e ∈ es, e.Proper) :
    (separated separator es).Proper := by
  induction es using separated.induct with
  | case1 => exact proper_nothing
  | case2 e => exact h e (by simp)
  | case3 e es hne ih =>
      obtain ⟨he, hes⟩ := List.forall_mem_cons.mp h
      rw [separated_cons _ _ (by rintro rfl; exact hne rfl)]
      simp [he, ih hes]

end Emission

open Emission

-- Nothing is written for a part that ends with the fault of a sink. What follows an operand is taken into
-- what is written for it.
def Role.Proper (role : Role) : Prop := ∀ rest, role = .operand rest → rest.Proper

def Part.Proper (p : Part) : Prop := ∀ role : Role, role.Proper → (p.emitted role).Proper

namespace Rule

variable {t : Tree} {kind : NodeKind} {p : Part} {ps : List Part} {s : Text} {role : Role}

@[simp]
theorem proper_emitted (h : p.Proper) (hrole : ∀ rest, role = .operand rest → rest.Proper) :
    (p.emitted role).Proper :=
  h role hrole

@[simp]
theorem proper_expression (h : p.Proper) : p.expression.Proper := h .expression nofun

@[simp]
theorem proper_statement (h : p.Proper) : p.statement.Proper := h .statement nofun

@[simp]
theorem proper_block (h : p.Proper) : p.block.Proper := h .block nofun

@[simp]
theorem proper_spelled {f : Text → Emission} :
    (p.spelled f).Proper ↔ ∀ kind, p.tree = .token kind → (f kind.spelling).Proper := by
  unfold Part.spelled
  split <;> simp_all

@[simp]
theorem proper_spelling : p.spelling.Proper := by simp [Part.spelling]

@[simp]
theorem proper_fieldText (name : Text) (t : Tree) : (fieldText name t).Proper := by
  unfold fieldText
  split <;> simp

@[simp]
theorem proper_name : p.name.Proper := proper_fieldText _ _

@[simp]
theorem proper_literal : p.literal.Proper := proper_fieldText _ _

@[simp]
theorem proper_names : (names p).Proper := by
  unfold names
  split
  · refine proper_separated fun e he => ?_
    obtain ⟨t, -, rfl⟩ := List.mem_map.mp he
    exact proper_fieldText _ _
  · simp

theorem ne_sinkClosed_of_first {fault : RenderFault} (h : t.first = .error fault) :
    fault ≠ .sinkClosed := by
  unfold Tree.first at h
  grind

@[simp]
theorem proper_blankBefore (op : Text) (list : Tree) : (blankBefore op list).Proper := by
  unfold blankBefore
  split
  · simp
  · exact proper_stop.mpr (ne_sinkClosed_of_first (by assumption))

@[simp]
theorem proper_channelMark : (channelMark p).Proper := by
  unfold channelMark
  split <;> try exact proper_write _
  split <;> simp

@[simp]
theorem proper_operatorBefore (h : p.Proper) : (operatorBefore s p).Proper := by
  simp [operatorBefore, h]

@[simp]
theorem proper_operatorBeforeList (h : p.Proper) : (operatorBeforeList s p).Proper := by
  simp [operatorBeforeList, h]

@[simp]
theorem proper_signature {params results typeParams : Part} (hparams : params.Proper)
    (hresults : results.Proper) (htypeParams : typeParams.Proper) :
    (signature params results typeParams).Proper := by
  simp [signature, signatureStart, optional, hparams, hresults, htypeParams]

theorem proper_expressionRule (h : ∀ p ∈ ps, p.Proper) : (expression t kind ps).Proper := by
  unfold expression optional
  split <;> simp_all [expressions]

theorem proper_operandRule {rest : Emission} (h : ∀ p ∈ ps, p.Proper) (hrest : rest.Proper) :
    (operand t kind ps rest).Proper := by
  unfold operand
  split
  · simp_all
  · simp [proper_expressionRule h, hrest]

@[simp]
theorem proper_otherwise (h : p.Proper) : (otherwise p).Proper := by
  unfold otherwise
  split <;> simp [h]

theorem proper_statementRule (h : ∀ p ∈ ps, p.Proper) : (statement t kind ps).Proper := by
  unfold statement
  split <;> simp_all [expressions, optional, loopHeader, rangeHeader, switchHeader]

theorem proper_blockRule (h : ∀ p ∈ ps, p.Proper) : (block kind ps).Proper := by
  unfold block
  split <;> simp_all

theorem ne_sinkClosed_of_isSingle {fault : RenderFault} (h : isSingle p = .error fault) :
    fault ≠ .sinkClosed := by
  unfold isSingle at h
  grind

@[simp]
theorem proper_single (item : Item) (h : p.Proper) : (single item p).Proper := by
  unfold single
  split
  · simp [h]
  · exact proper_stop.mpr (ne_sinkClosed_of_first (by assumption))

@[simp]
theorem proper_genDecl {tok specs grouped : Part} (h : specs.Proper) :
    (genDecl tok specs grouped).Proper := by
  unfold genDecl
  split
  · simp [h]
  · simp [h]
  · rename_i fault hfault
    unfold isUngrouped at hfault
    split at hfault
    · cases hfault
    · simp [ne_sinkClosed_of_isSingle hfault]

theorem proper_declarationRule (h : ∀ p ∈ ps, p.Proper) : (declaration t kind ps).Proper := by
  unfold declaration
  split <;> simp_all [funcDecl, optional]

theorem proper_specRule (h : ∀ p ∈ ps, p.Proper) : (spec t kind ps).Proper := by
  unfold spec
  split <;> simp_all [optional, typeParameters]

theorem proper_unitRule (h : ∀ p ∈ ps, p.Proper) : (unit t kind ps).Proper := by
  unfold unit
  split <;> simp_all

theorem proper_inFieldList {f : Part → Emission} (h : ∀ p ∈ ps, p.Proper)
    (hf : ∀ p : Part, p.Proper → (f p).Proper) : (inFieldList kind ps f).Proper := by
  unfold inFieldList
  split <;> simp_all

theorem ne_sinkClosed_of_isLoneType {fault : RenderFault} (h : isLoneType p = .error fault) :
    fault ≠ .sinkClosed := by
  simp only [isLoneType, bind, Except.bind] at h
  split at h
  · cases h
    exact ne_sinkClosed_of_isSingle (by assumption)
  · split at h
    · split at h
      · cases h
        exact ne_sinkClosed_of_first (by assumption)
      · split at h <;> cases h
        rintro ⟨⟩
    · cases h

theorem proper_results (h : p.Proper) : (results p).Proper := by
  unfold results
  split
  · simp [h]
  · simp [h]
  · exact proper_stop.mpr (ne_sinkClosed_of_isLoneType (by assumption))

theorem proper_fieldRule (h : ∀ p ∈ ps, p.Proper) : (field kind ps).Proper := by
  unfold field
  split <;> simp_all [fieldStart, optional]

theorem proper_fieldTypeRule (h : ∀ p ∈ ps, p.Proper) : (fieldType kind ps).Proper := by
  unfold fieldType
  split <;> simp_all

theorem proper_interfaceElementRule (h : ∀ p ∈ ps, p.Proper) :
    (interfaceElement t kind ps).Proper := by
  unfold interfaceElement
  split
  · split <;> simp_all
  · simp

theorem proper_node (h : ∀ p ∈ ps, p.Proper) (hrole : role.Proper) : (node t kind ps role).Proper := by
  cases role with
  | unit => exact proper_unitRule h
  | declaration => exact proper_declarationRule h
  | spec => exact proper_specRule h
  | statement => exact proper_statementRule h
  | block => exact proper_blockRule h
  | expression => exact proper_expressionRule h
  | operand rest => exact proper_operandRule h (hrole rest rfl)
  | signature =>
      simp only [node]
      split <;> simp_all [signatureStart, optional]
  | results => exact proper_inFieldList h fun p hp => proper_results hp
  | fieldList separator => exact proper_inFieldList h fun p hp => by simp [hp]
  | field => exact proper_fieldRule h
  | fieldType => exact proper_fieldTypeRule h
  | methods => exact proper_inFieldList h fun p hp => by simp [hp]
  | interfaceElement => exact proper_interfaceElementRule h
  | each item => simp [node]

theorem proper_other (hrole : role.Proper) : (other t role).Proper := by
  unfold other
  split <;> simp_all [Role.Proper]

theorem proper_statements (h : ∀ p ∈ ps, p.Proper) : (statements ps).Proper := by
  induction ps using statements.induct with
  | case1 => exact proper_nothing
  | case2 p => simp_all [statements]
  | case3 p ps hne ih => simp_all [statements]

theorem proper_sequence (item : Item) (h : ∀ p ∈ ps, p.Proper) : (sequence item ps).Proper := by
  unfold sequence
  split
  · exact proper_statements h
  · refine proper_separated fun e he => ?_
    obtain ⟨p, hp, rfl⟩ := List.mem_map.mp he
    have hp := h p hp
    cases item <;> simp [hp, Item.role]

theorem proper_tuple (h : ∀ p ∈ ps, p.Proper) (hrole : role.Proper) : (tuple t ps role).Proper := by
  unfold tuple
  split
  · exact proper_sequence _ h
  · exact proper_other hrole

theorem proper_plain (hrole : role.Proper) : (plain t role).Proper := by
  unfold plain
  split
  · split
    · refine proper_sequence _ fun p hp => ?_
      obtain ⟨t, -, rfl⟩ := List.mem_map.mp hp
      exact fun _ => proper_other
    · simp
  · exact proper_other hrole

end Rule

namespace Tree

mutual

theorem proper_emittedAs (t : Tree) {role : Role} (h : role.Proper) : (t.emittedAs role).Proper := by
  cases t with
  | node kind place fields => exact Rule.proper_node (proper_parts fields) h
  | tuple items => exact Rule.proper_tuple (proper_parts items) h
  | _ => exact Rule.proper_plain h

theorem proper_parts (ts : List Tree) : ∀ p ∈ parts ts, p.Proper := by
  cases ts with
  | nil => nofun
  | cons t ts =>
      exact List.forall_mem_cons.mpr ⟨fun _ h => proper_emittedAs t h, proper_parts ts⟩

end

-- No rule for writing ends with the fault of a sink.
theorem ending_emission (t : Tree) : t.emission.ending ≠ some .sinkClosed := by
  refine proper_emittedAs t fun rest h => ?_
  unfold ownRole at h
  grind

-- A sink without a limit gets the writes for a tree, whatever it holds. A sink with a limit gets as many of
-- them as it has room for. If that is all of them, the writing ends the same way, and else it ends with the
-- fault of the sink, before anything can be found wrong with what would have been written next.
theorem receive_limited (t : Tree) (n : Nat) :
    let whole := Sink.unlimited.receive t.emission
    let cut := (Sink.limited n).receive t.emission
    whole.2 ≠ some .sinkClosed ∧
      (whole.1.writes.length ≤ n → cut.1.writes = whole.1.writes ∧ cut.2 = whole.2) ∧
        (n < whole.1.writes.length →
          cut.1.writes = whole.1.writes.take n ∧ cut.2 = some .sinkClosed) := by
  have hwhole : Sink.unlimited.receive t.emission =
      (⟨t.emission.made.reverse, none⟩, t.emission.ending) := by
    simp [Sink.receive, Sink.unlimited, Sink.writeAll_unlimited]
  have hcut : (Sink.limited n).receive t.emission =
      (⟨(t.emission.made.take n).reverse, some (n - t.emission.made.length)⟩,
        if t.emission.made.length ≤ n then t.emission.ending else some .sinkClosed) := by
    simp only [Sink.receive, Sink.limited, Sink.writeAll_limited, List.append_nil]
    split <;> rfl
  simp only [hwhole, hcut, Sink.writes, List.reverse_reverse]
  refine ⟨ending_emission t, fun hroom => ?_, fun hfull => ?_⟩
  · exact ⟨List.take_of_length_le hroom, if_pos hroom⟩
  · exact ⟨trivial, if_neg (Nat.not_le.mpr hfull)⟩

-- A sum that lacks its right side. With room for what stands before, its writing ends with what is missing,
-- and with less room with the fault of the sink.
theorem receive_limited_sum :
    let sum : Tree := .binary .unknownPlace (.ident .unknownPlace (.text "x")) (.token (.op .Add)) .absent
    ((Sink.limited 2).receive sum.emission).2 = some (.unsupported .expression .absent) ∧
      ((Sink.limited 1).receive sum.emission).1.written = ["x"] ∧
        ((Sink.limited 1).receive sum.emission).2 = some .sinkClosed := by
  intro sum
  have hwhole : Sink.unlimited.receive sum.emission =
      (⟨[.text "+", .text "x"], none⟩, some (.unsupported .expression .absent)) := rfl
  obtain ⟨-, hroom, -⟩ := receive_limited sum 2
  obtain ⟨-, -, hfull⟩ := receive_limited sum 1
  rw [hwhole] at hroom hfull
  refine ⟨(hroom (by decide)).2, ?_, (hfull (by decide)).2⟩
  rw [Sink.written, (hfull (by decide)).1]
  rfl

end Tree

end GoCompact
