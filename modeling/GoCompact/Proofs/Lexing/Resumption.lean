import GoCompact.Proofs.Lexing.Steps

namespace GoCompact.Lexer

variable {s s' : Lexer} {t : Token} {d : Diagnostic} {n : Nat}

-- A fault is found again from any place in the gap before it. No line end that counts stands there, or
-- a semicolon would have been given.
theorem next_haltWithin (h : s.next = .error d) (bound : List CodePoint) :
    (haltWithin bound s).next = .error d := by
  induction bound generalizing s with
  | nil => exact h
  | cons c bound ih =>
      unfold haltWithin
      cases hgap : Gap.read s.rest with
      | piece gap rest =>
          rw [next_of_piece hgap] at h
          split at h
          · cases h
          · exact ih h
      | unfinished => exact h
      | none => exact h

theorem next_halted (h : s.next = .error d) : s.halted.next = .error d :=
  next_haltWithin h s.rest

-- The end token is given again, from where it was given.
theorem next_of_ending (h : s.next = .ok (t, s')) (hkind : t.kind = .eof) :
    s'.next = .ok (t, s') := by
  obtain ⟨gaps, rest, -, -, hgiven⟩ := next_cases h
  cases hgiven with
  | inserted => cases hkind
  | insertedLast => cases hkind
  | ending hpending hrest => rw [next_of_nil hrest, atEnd, hpending]; rfl
  | scanned _ _ hscan => exact absurd hkind (Scan.kind_ne_eof hscan)

theorem draw_zero : s.draw 0 = ⟨[], s, .enough⟩ := rfl

-- What one more token makes of a draw.
theorem draw_of_error (h : s.next = .error d) : s.draw (n + 1) = ⟨[], s.halted, .failed d⟩ := by
  simp [draw, h]

theorem draw_of_ending (h : s.next = .ok (t, s')) (hkind : t.kind = .eof) :
    s.draw (n + 1) = ⟨[t], s', .ended⟩ := by
  simp [draw, h, hkind]

theorem draw_of_token (h : s.next = .ok (t, s')) (hkind : t.kind ≠ .eof) :
    s.draw (n + 1) = { s'.draw n with tokens := t :: (s'.draw n).tokens } := by
  simp [draw, h, hkind]

-- Where a draw leaves the lexer.
structure Leaves (drawn : Drawn) : Prop where
  ended : drawn.stop = .ended → ∃ t, drawn.tokens.getLast? = some t ∧ t.kind = .eof ∧
    drawn.lexer.next = .ok (t, drawn.lexer)
  failed : ∀ d, drawn.stop = .failed d → drawn.lexer.next = .error d

theorem leaves_draw (s : Lexer) (n : Nat) : Leaves (s.draw n) := by
  induction n generalizing s with
  | zero =>
      rw [draw_zero]
      constructor <;> intros <;> contradiction
  | succ n ih =>
      cases hnext : s.next with
      | error d =>
          rw [draw_of_error hnext]
          refine ⟨nofun, fun d' hd => ?_⟩
          obtain rfl := Stop.failed.inj hd
          exact next_halted hnext
      | ok p =>
          obtain ⟨t, s'⟩ := p
          by_cases hkind : t.kind = .eof
          · rw [draw_of_ending hnext hkind]
            exact ⟨fun _ => ⟨t, rfl, hkind, next_of_ending hnext hkind⟩, fun _ h => by cases h⟩
          · rw [draw_of_token hnext hkind]
            refine ⟨fun hended => ?_, (ih s').failed⟩
            obtain ⟨u, hlast, hu⟩ := (ih s').ended hended
            exact ⟨u, by simp [List.getLast?_cons, hlast], hu⟩

-- A draw that was not over is continued by the next one.
theorem draw_add (h : (s.draw n).stop = .enough) (m : Nat) :
    s.draw (n + m) = { (s.draw n).lexer.draw m with
      tokens := (s.draw n).tokens ++ ((s.draw n).lexer.draw m).tokens } := by
  induction n generalizing s with
  | zero => simp [draw]
  | succ n ih =>
      rw [Nat.add_right_comm]
      cases hnext : s.next with
      | error d =>
          rw [draw_of_error hnext] at h
          cases h
      | ok p =>
          obtain ⟨t, s'⟩ := p
          by_cases hkind : t.kind = .eof
          · rw [draw_of_ending hnext hkind] at h
            cases h
          · rw [draw_of_token hnext hkind] at h
            rw [draw_of_token hnext hkind, draw_of_token hnext hkind, ih h]
            rfl

-- Draws from a lexer that gives the end token for ever.
theorem drawEach_ended (h : s.next = .ok (t, s)) (hkind : t.kind = .eof) (ns : List Nat) :
    ∃ m, (s.drawEach ns).flatMap (·.tokens) = List.replicate m t ∧
      ∀ drawn ∈ s.drawEach ns, ∀ d, drawn.stop ≠ .failed d := by
  induction ns with
  | nil => exact ⟨0, rfl, by simp [drawEach]⟩
  | cons n ns ih =>
      obtain ⟨m, hm, hstops⟩ := ih
      cases n with
      | zero => exact ⟨m, by simpa [drawEach, draw] using hm, by simpa [drawEach, draw] using hstops⟩
      | succ n =>
          rw [drawEach, draw_of_ending h hkind]
          exact ⟨m + 1, by simp [hm, List.replicate_succ], by simpa using hstops⟩

-- Draws from a lexer that fails.
theorem drawEach_failed (h : s.next = .error d) (ns : List Nat) :
    (s.drawEach ns).map (fun drawn => (drawn.tokens, drawn.stop)) =
      ns.map fun n => ([], if n = 0 then .enough else .failed d) := by
  induction ns generalizing s with
  | nil => rfl
  | cons n ns ih =>
      cases n with
      | zero => simp [drawEach, draw, ih h]
      | succ n => simp [drawEach, draw_of_error h, ih (next_halted h)]

theorem of_mem_drawEach_failed {ns : List Nat} {drawn : Drawn} (h : s.next = .error d)
    (hdrawn : drawn ∈ s.drawEach ns) :
    drawn.tokens = [] ∧ (drawn.stop = .enough ∨ drawn.stop = .failed d) := by
  have hmem := List.mem_map_of_mem (f := fun drawn : Drawn => (drawn.tokens, drawn.stop)) hdrawn
  rw [drawEach_failed h] at hmem
  obtain ⟨n, -, heq⟩ := List.mem_map.mp hmem
  obtain ⟨htokens, hstop⟩ := Prod.mk.inj heq
  refine ⟨htokens.symm, ?_⟩
  rw [← hstop]
  split <;> simp

-- All draws together give what one draw gives, and then the end token again. The fault that ends one of
-- them ends that draw too.
theorem drawEach_stream (s : Lexer) (ns : List Nat) :
    (∃ k m t, (s.drawEach ns).flatMap (·.tokens) = (s.draw k).tokens ++ List.replicate m t ∧
      (m ≠ 0 → t.kind = .eof ∧ (s.draw k).stop = .ended ∧ (s.draw k).tokens.getLast? = some t)) ∧
      ∀ drawn ∈ s.drawEach ns, ∀ d, drawn.stop = .failed d → ∃ k, (s.draw k).stop = .failed d := by
  induction ns generalizing s with
  | nil => exact ⟨⟨0, 0, default, rfl, fun h => absurd rfl h⟩, fun _ h => by cases h⟩
  | cons n ns ih =>
      have hleaves := leaves_draw s n
      simp only [drawEach, List.flatMap_cons, List.forall_mem_cons]
      cases hstop : (s.draw n).stop with
      | enough =>
          obtain ⟨⟨k, m, t, htokens, hend⟩, hfault⟩ := ih (s.draw n).lexer
          have hadd := draw_add hstop
          refine ⟨⟨n + k, m, t, ?_, fun hm => ?_⟩, fun _ h => (by cases h), ?_⟩
          · rw [hadd, htokens, List.append_assoc]
          · obtain ⟨hkind, hended, hlast⟩ := hend hm
            rw [hadd]
            exact ⟨hkind, hended, by simp [hlast]⟩
          · intro drawn hdrawn d hd
            obtain ⟨k, hk⟩ := hfault drawn hdrawn d hd
            exact ⟨n + k, by rw [hadd]; exact hk⟩
      | ended =>
          obtain ⟨t, hlast, hkind, hnext⟩ := hleaves.ended hstop
          obtain ⟨m, htokens, hstops⟩ := drawEach_ended hnext hkind ns
          refine ⟨⟨n, m, t, by rw [htokens], fun _ => ⟨hkind, hstop, hlast⟩⟩, fun _ h => (by cases h),
            ?_⟩
          exact fun drawn hdrawn d hd => absurd hd (hstops drawn hdrawn d)
      | failed d =>
          have hlater {drawn : Drawn} (hdrawn : drawn ∈ (s.draw n).lexer.drawEach ns) :=
            of_mem_drawEach_failed (hleaves.failed d hstop) hdrawn
          refine ⟨⟨n, 0, default, ?_, fun h => absurd rfl h⟩, fun d' hd => ⟨n, hstop.trans hd⟩, ?_⟩
          · rw [List.flatMap_eq_nil_iff.mpr fun drawn hdrawn => (hlater hdrawn).1]
            rfl
          · intro drawn hdrawn d' hd
            rcases (hlater hdrawn).2 with h | h <;> rw [h] at hd
            · cases hd
            · exact ⟨n, hstop.trans hd⟩

-- After a draw that failed no token is drawn, and every draw fails in the same way.
theorem drawEach_after_failed {i : Nat} {ns : List Nat}
    (h : (s.drawEach ns)[i]?.map (·.stop) = some (.failed d)) :
    ((s.drawEach ns).drop (i + 1)).map (fun later => (later.tokens, later.stop)) =
      (ns.drop (i + 1)).map fun n => ([], if n = 0 then .enough else .failed d) := by
  induction ns generalizing s i with
  | nil => rfl
  | cons n ns ih =>
      cases i with
      | zero => exact drawEach_failed ((leaves_draw s n).failed d (Option.some.inj h)) ns
      | succ i => exact ih h

-- The tokens that are drawn from a lexer, by whatever draws, are those that stand first in its stream,
-- the end token being repeated. Once a draw has failed, with the diagnostic of the stream, every later
-- draw of a token fails with the same diagnostic and gives none.
theorem drawEach_resumes (source : Text) (file : Option Text) (takes : List Nat) :
    let fresh := new source file
    let results := fresh.drawEach takes
    (∃ k m t, results.flatMap (·.tokens) = (fresh.draw k).tokens ++ List.replicate m t ∧
      (m ≠ 0 → t.kind = .eof ∧ (fresh.draw k).stop = .ended ∧
        (fresh.draw k).tokens.getLast? = some t)) ∧
      ∀ i d, results[i]?.map (·.stop) = some (.failed d) →
        (∃ k, (fresh.draw k).stop = .failed d) ∧
        (results.drop (i + 1)).map (fun later => (later.tokens, later.stop)) =
          (takes.drop (i + 1)).map fun n => ([], if n = 0 then .enough else .failed d) := by
  intro fresh results
  obtain ⟨htokens, hfault⟩ := drawEach_stream fresh takes
  refine ⟨htokens, fun i d h => ⟨?_, drawEach_after_failed h⟩⟩
  obtain ⟨drawn, hdrawn, hstop⟩ := Option.map_eq_some_iff.mp h
  exact hfault drawn (List.mem_of_getElem? hdrawn) d hstop

end GoCompact.Lexer
