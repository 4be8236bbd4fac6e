import MarkupGrader.Proofs.Boundary.Call

/-! What of the texts that a host passes reaches the validator. The zero that ends a text in the
units ends it for the validator too: it is asked with what stands before the first zero, and so with
the whole text only if there is none. No call is turned away for its texts. -/

namespace MarkupGrader

open Text (zero)

/-- A result that is made of the reply to one question. -/
structure AskedAt {α β γ : Type} (result : (α → β) → γ) (a : α) : Prop where
  only : DependsOn result {a}
  needed : ¬ DependsOn result ∅

theorem AskedAt.unique {α β γ : Type} {result : (α → β) → γ} {a a' : α} (h : AskedAt result a)
    (h' : AskedAt result a') : a = a' := by
  classical
  by_contra apart
  refine h.needed fun f g _ => ?_
  -- Between the two functions stands one that replies to `a` as the first and else as the second.
  let mixed : α → β := Function.update g a (f a)
  have first : result f = result mixed := h.only fun i hi => by
    rw [Set.mem_singleton_iff] at hi
    rw [hi]
    exact (Function.update_self a (f a) g).symm
  have second : result mixed = result g := h'.only fun i hi => by
    rw [Set.mem_singleton_iff] at hi
    rw [hi]
    exact Function.update_of_ne (Ne.symm apart) (f a) g
  exact first.trans second

namespace Connection

variable {α : Type} {k : Connection} {v : Validator} {c : Nat} {code command : Text}

def onto (k : Connection) (v : Validator) (c : Nat) : Connection :=
  ⟨k.language, .ready (.ofValidator v c)⟩

/-- What the syntax check of `code` gives, by the replies of the validator. -/
def checkedBy (k : Connection) (v : Validator) (c : Nat) (code : Text)
    (replies : Text → Reply Outcome) : Except Fault Outcome :=
  (k.onto { v with checkSyntax := replies } c).checkSyntax code

/-- What the query gives, by the replies of the validator to a code and a command. -/
def queriedBy (k : Connection) (v : Validator) (c : Nat) (code command : Text)
    (replies : Text × Text → Reply Outcome) : Except Fault Outcome :=
  (k.onto { v with query := fun code command => replies (code, command) } c).query code command

theorem readyOn_onto (k : Connection) (v : Validator) (c : Nat) :
    (k.onto v c).ReadyOn (.ofValidator v c) :=
  ⟨_, EntryPoints.ofExports_ofValidator v c, rfl⟩

theorem onto_of_readyOn (ready : k.ReadyOn (.ofValidator v c)) : k.onto v c = k := by
  obtain ⟨entry, resolved, stage⟩ := ready
  rw [EntryPoints.ofExports_ofValidator, Except.ok.injEq] at resolved
  rw [onto, resolved, ← stage]

theorem askedAt_of_call {op : Operation} {understand : Text → Outcome}
    {result : (α → Reply Outcome) → Except Fault Outcome} (room : 2 ≤ c) (a : α)
    (through : ∀ replies, result replies =
      (call op c (Exports.reply Outcome.toResponse (replies a))).map understand) :
    AskedAt result a where
  only f g same := by rw [through, through, same a (Set.mem_singleton a)]
  needed constant := by
    have equal : result (fun _ => .breakdown) = result fun _ => .fault (.selectorParseFailed []) :=
      constant fun i none => absurd none (Set.notMem_empty i)
    rw [through, through, call_reply room nofun, call_reply room nofun] at equal
    cases equal

theorem askedAt_checkedBy (room : 2 ≤ c) (k : Connection) (v : Validator) (code : Text) :
    AskedAt (k.checkedBy v c code) (code.takeWhile (· != zero)) := by
  have through (replies : Text → Reply Outcome) : k.checkedBy v c code replies =
      (call .checkSyntax c
        (Exports.reply Outcome.toResponse (replies (code.takeWhile (· != zero))))).map
          fun t => if t.isEmpty then .unanswered else Outcome.ofSyntaxResponse t := by
    rw [checkedBy, checkSyntax, checkSyntaxText_untilZero (readyOn_onto k _ c)]
  exact askedAt_of_call room _ through

theorem askedAt_queriedBy (room : 2 ≤ c) (k : Connection) (v : Validator) (code command : Text) :
    AskedAt (k.queriedBy v c code command)
      (code.takeWhile (· != zero), command.takeWhile (· != zero)) := by
  have through (replies : Text × Text → Reply Outcome) : k.queriedBy v c code command replies =
      (call .query c (Exports.reply Outcome.toResponse
        (replies (code.takeWhile (· != zero), command.takeWhile (· != zero))))).map
          (Outcome.ofQueryResponse command) := by
    rw [queriedBy, query, queryText_untilZero (readyOn_onto k _ c)]
  exact askedAt_of_call room _ through

/-- Through a ready connection with room for responses the validator is asked, with the code and the
command up to their first zeros. These are the texts that were passed just if no zero is in them. -/
theorem asked_untilZero (room : 2 ≤ c) (ready : k.ReadyOn (.ofValidator v c))
    (code command : Text) :
    (k.checkedBy v c code v.checkSyntax = k.checkSyntax code ∧
      AskedAt (k.checkedBy v c code) (code.takeWhile (· != zero))) ∧
    (k.queriedBy v c code command (fun (a, b) => v.query a b) = k.query code command ∧
      AskedAt (k.queriedBy v c code command)
        (code.takeWhile (· != zero), command.takeWhile (· != zero))) ∧
    (code.takeWhile (· != zero) = code ↔ zero ∉ code) ∧
    (command.takeWhile (· != zero) = command ↔ zero ∉ command) := by
  have same : k.onto v c = k := onto_of_readyOn ready
  refine ⟨⟨?_, askedAt_checkedBy room k v code⟩, ⟨?_, askedAt_queriedBy room k v code command⟩,
    Text.takeWhile_eq_self_iff, Text.takeWhile_eq_self_iff⟩
  · exact congrArg (·.checkSyntax code) same
  · exact congrArg (·.query code command) same

theorem asked_untilZero_echo :
    let echo : Validator := ⟨.answer "Echo", fun code => .answer (.rejected code),
      fun code command => .answer (.rejected (code ++ command))⟩
    let k : Connection := ⟨⟨"7", "Echo"⟩, .ready (.ofValidator echo 64)⟩
    k.ReadyOn (.ofValidator echo 64) ∧
      AskedAt (k.queriedBy echo 64 "a\x00b" "c😀") ("a", "c😀") ∧
      k.query "a\x00b" "c😀" = .ok (.rejected "ac😀") := by
  intro echo k
  have ready : k.ReadyOn (.ofValidator echo 64) := readyOn_onto k echo 64
  obtain ⟨-, ⟨same, asked⟩, -⟩ := asked_untilZero (by decide) ready "a\x00b" "c😀"
  refine ⟨ready, asked, ?_⟩
  rw [← same]
  decide +kernel

/-- The validator of a code with a zero in it sees the beginning only, and nothing is said of it. -/
theorem not_asked_whole :
    let echo : Validator := ⟨.answer "Echo", fun code => .answer (.rejected code),
      fun code command => .answer (.rejected (code ++ command))⟩
    let k : Connection := ⟨⟨"7", "Echo"⟩, .ready (.ofValidator echo 64)⟩
    k.ReadyOn (.ofValidator echo 64) ∧ k.checkSyntaxText "a\x00b" = .ok "a" ∧
      ¬ AskedAt (k.checkedBy echo 64 "a\x00b") "a\x00b" ∧
      ¬ ∃ n, k.checkSyntax "a\x00b" = .error (.encodingConversionFailed n) := by
  intro echo k
  refine ⟨readyOn_onto k echo 64, by decide +kernel, fun whole => ?_, ?_⟩
  · have cut := whole.unique (askedAt_checkedBy (by decide) k echo "a\x00b")
    exact absurd cut (by decide)
  · have answered : k.checkSyntax "a\x00b" = .ok (.syntaxErrors "a") := by decide +kernel
    rintro ⟨n, failed⟩
    rw [answered] at failed
    cases failed

end Connection
end MarkupGrader
