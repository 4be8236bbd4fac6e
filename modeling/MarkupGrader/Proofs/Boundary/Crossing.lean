import MarkupGrader.Proofs.Boundary.Call

/-! A validator as a host hears it, told without buffers. An answer is heard as far as it fits, cut
behind a whole character; a fault is heard as the fault that its code stands for, and a breakdown as
a fault of the module. A buffer that is too small is refused, and then nothing depends on the
validator. -/

namespace MarkupGrader

open Text (ZeroFree toUnits)

namespace Buffer

/-- The longest beginning of a text, in whole characters, that takes at most `room` units. -/
structure IsCut (room : Nat) (t p : Text) : Prop where
  isPrefix : p <+: t
  fits : (toUnits p).length ≤ room
  longest : ∀ q, q <+: t → (toUnits q).length ≤ room → q <+: p

variable {room : Nat} {t p q : Text}

theorem prefix_fitting_of_fits (sub : q <+: t) (fits : (toUnits q).length ≤ room) :
    q <+: fitting room t := by
  induction q generalizing t room with
  | nil => exact List.nil_prefix
  | cons c q ih =>
    obtain ⟨rest, rfl⟩ := sub
    rw [Text.toUnits_cons, List.length_append] at fits
    rw [List.cons_append, fitting, if_pos (by omega)]
    exact List.cons_prefix_cons.mpr ⟨rfl, ih (List.prefix_append q rest) (by omega)⟩

theorem isCut_fitting (room : Nat) (t : Text) : IsCut room t (fitting room t) where
  isPrefix := prefix_fitting room t
  fits := length_toUnits_fitting room t
  longest _ sub fits := prefix_fitting_of_fits sub fits

theorem IsCut.unique (hp : IsCut room t p) (hq : IsCut room t q) : p = q :=
  (hq.longest p hp.isPrefix hp.fits).eq_of_length_le
    (hp.longest q hq.isPrefix hq.fits).length_le

end Buffer

/-- What a host makes of a reply whose text has `room` units. -/
inductive Reply.HeardAs {α β : Type} (op : Operation) (room : Nat) (render : α → Text)
    (understand : Text → β) : Reply α → Except Fault β → Prop
  | answer {a : α} {p : Text} (cut : Buffer.IsCut room (render a) p) :
      HeardAs op room render understand (.answer a) (.ok (understand p))
  | fault (f : Fault) :
      HeardAs op room render understand (.fault f)
        (.error (ErrorCode.toFault op (ErrorCode.ofFault f)))
  | breakdown : HeardAs op room render understand .breakdown (.error (.moduleFault op 3))

namespace Reply

variable {α β : Type} {op : Operation} {room : Nat} {render : α → Text} {understand : Text → β}
  {r : Reply α} {x y : Except Fault β}

theorem HeardAs.unique (hx : r.HeardAs op room render understand x)
    (hy : r.HeardAs op room render understand y) : x = y := by
  cases hx with
  | answer cut =>
    cases hy with
    | answer cut' => rw [cut.unique cut']
  | fault f => cases hy; rfl
  | breakdown => cases hy; rfl

theorem heardAs_hosted (r : Reply α) (op : Operation) (c : Nat) (render : α → Text)
    (understand : Text → β) :
    r.HeardAs op (c - 1) render understand ((r.hosted op c render).map understand) := by
  cases r with
  | answer a => exact .answer (Buffer.isCut_fitting (c - 1) (render a))
  | fault f => exact .fault f
  | breakdown => exact .breakdown

end Reply

namespace Outcome

def heardInSyntax (t : Text) : Outcome := if t.isEmpty then .unanswered else ofSyntaxResponse t

def heardInQuery (command t : Text) : Outcome :=
  if t.isEmpty then .unanswered else ofQueryResponse command t

theorem heardInQuery_eq (command : Text) : heardInQuery command = ofQueryResponse command := by
  funext t
  unfold heardInQuery
  split
  · next empty =>
    rw [List.isEmpty_iff] at empty
    subst empty
    rfl
  · rfl

end Outcome

/-- The entry points leave a small buffer refused, whatever the validator is. -/
structure EntryPoints.Refuses (entry : EntryPoints) : Prop where
  identify : ∀ b : Buffer, b.length < 2 → entry.identify b = b.refuse
  checkSyntax : ∀ code (b : Buffer), b.length < 2 → entry.checkSyntax code b = b.refuse
  query : ∀ code command (b : Buffer), b.length < 2 → entry.query code command b = b.refuse

theorem Buffer.hasRoom_of_lt {b : Buffer} (small : b.length < 2) : b.hasRoom = false := by
  rw [← Bool.not_eq_true, Buffer.hasRoom_iff]
  omega

theorem EntryPoints.refuses_ofValidator (v : Validator) (c : Nat) : (ofValidator v c).Refuses where
  identify b small := by
    simp only [ofValidator, Exports.reply, Buffer.hasRoom_of_lt small, Bool.false_eq_true, if_false]
  checkSyntax code b small := by
    simp only [ofValidator, Buffer.hasRoom_of_lt small, Bool.false_eq_true, if_false]
  query code command b small := by
    simp only [ofValidator, Buffer.hasRoom_of_lt small, Bool.false_eq_true, if_false]

namespace Connection

variable {k : Connection} {v : Validator} {c : Nat}

/-- The connection answers what is heard of the validator, as long as no text has a zero in it. -/
structure Hears (k : Connection) (v : Validator) (c : Nat) : Prop where
  identify : (∀ t, v.identify = .answer t → t.ZeroFree) →
    v.identify.HeardAs .identify (c - 1) id id k.identify
  checkSyntax : ∀ code : Text, code.ZeroFree →
    (∀ o, v.checkSyntax code = .answer o → o.toResponse.ZeroFree) →
      (v.checkSyntax code).HeardAs .checkSyntax (c - 1) Outcome.toResponse Outcome.heardInSyntax
        (k.checkSyntax code)
  query : ∀ code command : Text, code.ZeroFree → command.ZeroFree →
    (∀ o, v.query code command = .answer o → o.toResponse.ZeroFree) →
      (v.query code command).HeardAs .query (c - 1) Outcome.toResponse
        (Outcome.heardInQuery command) (k.query code command)

/-- Every operation of the connection fails for want of room. -/
structure LacksRoom (k : Connection) (c : Nat) : Prop where
  identify : k.identify = .error (.bufferTooSmall c)
  checkSyntax : ∀ code, k.checkSyntax code = .error (.bufferTooSmall c)
  query : ∀ code command, k.query code command = .error (.bufferTooSmall c)

theorem call_of_refuse {op : Operation} {use : Buffer → Buffer} (small : c < 2)
    (refused : ∀ b : Buffer, b.length < 2 → use b = b.refuse) :
    call op c use = .error (.bufferTooSmall c) := by
  have short : (Buffer.ofCapacity c).length < 2 := by rwa [Buffer.length_ofCapacity]
  simp only [call, refused _ short, Buffer.response_refuse (Buffer.hasRoom_of_lt short)]

theorem identify_eq (ready : k.ReadyOn (.ofValidator v c)) :
    k.identify = call .identify c (Exports.reply id v.identify) := by
  rw [identify, entry_of_readyOn ready]
  rfl

theorem hears_of_readyOn (ready : k.ReadyOn (.ofValidator v c)) (room : 2 ≤ c) : k.Hears v c where
  identify free := by
    have called : k.identify = v.identify.hosted .identify c id := by
      rw [identify_eq ready]
      exact call_reply room free
    have heard := v.identify.heardAs_hosted .identify c id id
    rwa [← called, Except.map_id] at heard
  checkSyntax code codeFree free := by
    have heard := (v.checkSyntax code).heardAs_hosted .checkSyntax c Outcome.toResponse
      Outcome.heardInSyntax
    rwa [← call_reply room free, ← checkSyntaxText_eq ready codeFree] at heard
  query code command codeFree commandFree free := by
    have heard := (v.query code command).heardAs_hosted .query c Outcome.toResponse
      (Outcome.heardInQuery command)
    rw [← call_reply room free, ← queryText_eq ready codeFree commandFree] at heard
    rwa [query, ← Outcome.heardInQuery_eq]

theorem lacksRoom_of_readyOn (ready : k.ReadyOn (.ofValidator v c)) (small : c < 2) :
    k.LacksRoom c := by
  have refuses := EntryPoints.refuses_ofValidator v c
  have entry := entry_of_readyOn ready
  refine ⟨?_, fun code => ?_, fun code command => ?_⟩
  · rw [identify, entry]
    exact call_of_refuse small refuses.identify
  · have text : k.checkSyntaxText code = .error (.bufferTooSmall c) := by
      rw [checkSyntaxText, entry]
      exact call_of_refuse small (refuses.checkSyntax code.toUnits)
    rw [checkSyntax, text]
    rfl
  · have text : k.queryText code command = .error (.bufferTooSmall c) := by
      rw [queryText, entry]
      exact call_of_refuse small (refuses.query code.toUnits command.toUnits)
    rw [query, text]
    rfl

/-- A ready connection to a published validator is the validator as it is heard. With too small a
buffer it is a refusal, and the validator is not asked. -/
theorem hears_or_lacksRoom (ready : k.ReadyOn (.ofValidator v c)) :
    (2 ≤ c → k.Hears v c) ∧
      (c < 2 → k.LacksRoom c ∧ ∃ entry, k.entry = .ok entry ∧ entry.Refuses) := by
  refine ⟨hears_of_readyOn ready, fun small => ⟨lacksRoom_of_readyOn ready small, _,
    entry_of_readyOn ready, EntryPoints.refuses_ofValidator v c⟩⟩

/-- Three units hold the first letter but not both halves of the sign behind it. -/
theorem hears_or_lacksRoom_surrogates :
    let v : Validator := ⟨.answer "a😀", fun _ => .breakdown, fun _ _ => .fault .missingQuery⟩
    let k (c : Nat) : Connection := ⟨⟨"1", "html"⟩, .ready (.ofValidator v c)⟩
    (k 3).identify = .ok "a" ∧ (k 3).checkSyntax "x" = .error (.moduleFault .checkSyntax 3) ∧
      (k 3).query "x" "y" = .error (.moduleFault .query 4) ∧
      (k 1).identify = .error (.bufferTooSmall 1) := by
  intro v k
  have ready (c : Nat) : (k c).ReadyOn (.ofValidator v c) :=
    ⟨_, EntryPoints.ofExports_ofValidator v c, rfl⟩
  have heard := (hears_or_lacksRoom (ready 3)).1 (by decide)
  have cut : Buffer.IsCut 2 "a😀" "a" := Buffer.isCut_fitting 2 "a😀"
  refine ⟨?_, ?_, ?_, ((hears_or_lacksRoom (ready 1)).2 (by decide)).1.identify⟩
  · exact (heard.identify (by rintro _ ⟨⟩; decide)).unique (.answer cut)
  · exact (heard.checkSyntax "x" (by decide) (by rintro _ ⟨⟩)).unique .breakdown
  · exact (heard.query "x" "y" (by decide) (by decide) (by rintro _ ⟨⟩)).unique
      (.fault .missingQuery)

end Connection
end MarkupGrader
