import MarkupGrader.Boundary.ErrorCode
import MarkupGrader.Proofs.Boundary.Buffer

/-! Faults and the codes that cross the boundary in their place. A host reads from every code but
zero a fault that has this code, and no fault has the code zero. Four kinds of faults are told by
their codes, and every other comes back as an internal fault of the module. -/

namespace MarkupGrader

/-- The number that a fault has of its own. -/
def Fault.carried? : Fault → Option UInt16
  | encodingConversionFailed code => some code
  | moduleFault _ code => some code
  | _ => none

namespace ErrorCode

variable {code : UInt16} {f : Fault}

theorem isMarshaling_iff : isMarshaling code = true ↔ code ∈ [22, 34, 80] := by
  simp only [isMarshaling, Bool.or_eq_true, beq_iff_eq, List.mem_cons, List.not_mem_nil, or_false,
    or_assoc]

theorem isFault_iff : isFault code = true ↔ code ∉ [0, 1, 2] ∧ code ∉ [22, 34, 80] := by
  rw [isFault, Bool.and_eq_true, Bool.not_eq_true', Bool.not_eq_true', ← Bool.not_eq_true,
    ← Bool.not_eq_true, isMarshaling_iff]
  simp only [configuration, selector, Bool.or_eq_true, beq_iff_eq, List.mem_cons, List.not_mem_nil,
    or_false, or_assoc]

theorem isFault_of_ne (nonzero : code ≠ 0) (conversion : ¬ isMarshaling code = true)
    (option : code ≠ configuration) (chain : code ≠ selector) : isFault code = true := by
  rw [isMarshaling_iff] at conversion
  refine isFault_iff.mpr ⟨fun low => ?_, conversion⟩
  simp only [List.mem_cons, List.not_mem_nil, or_false] at low
  rcases low with zero | one | two
  · exact nonzero zero
  · exact option one
  · exact chain two

theorem ofFault_toFault (operation : Operation) (nonzero : code ≠ 0) :
    ofFault (toFault operation code) = code := by
  unfold toFault
  split
  · next marshaling => exact if_pos marshaling
  · next conversion =>
    split
    · next option => exact option.symm
    · next option =>
      split
      · next chain => exact chain.symm
      · next chain => exact if_pos (isFault_of_ne nonzero conversion option chain)

/-- The faults of which the code tells the kind. -/
inductive Tells : Fault → Prop
  | configuration (message : Text) : Tells (.moduleConfigurationFailed message)
  | selector (message : Text) : Tells (.selectorParseFailed message)
  | conversion {code : UInt16} (marshaling : code ∈ [22, 34, 80]) :
      Tells (.encodingConversionFailed code)
  | fault (operation : Operation) {code : UInt16} (notTaken : code ∉ [0, 1, 2])
      (notMarshaling : code ∉ [22, 34, 80]) : Tells (.moduleFault operation code)

theorem ofFault_of_not_tells (h : ¬ Tells f) : ofFault f = internal := by
  cases f with
  | moduleConfigurationFailed message => exact absurd (.configuration message) h
  | selectorParseFailed message => exact absurd (.selector message) h
  | encodingConversionFailed code =>
    exact if_neg fun marshaling => h (.conversion (isMarshaling_iff.mp marshaling))
  | moduleFault operation code =>
    refine if_neg fun own => h ?_
    obtain ⟨notTaken, notMarshaling⟩ := isFault_iff.mp own
    exact .fault operation notTaken notMarshaling
  | _ => rfl

theorem Tells.ofFault_ne_zero (h : Tells f) : ofFault f ≠ 0 := by
  cases h with
  | configuration message =>
    show ErrorCode.configuration ≠ 0
    decide
  | selector message =>
    show ErrorCode.selector ≠ 0
    decide
  | @conversion code marshaling =>
    have written : ofFault (.encodingConversionFailed code) = code :=
      if_pos (isMarshaling_iff.mpr marshaling)
    rw [written]
    rintro rfl
    exact absurd marshaling (by decide)
  | @fault operation code notTaken notMarshaling =>
    have written : ofFault (.moduleFault operation code) = code :=
      if_pos (isFault_iff.mpr ⟨notTaken, notMarshaling⟩)
    rw [written]
    rintro rfl
    exact notTaken List.mem_cons_self

theorem ofFault_ne_noResponse (f : Fault) : ofFault f ≠ Buffer.noResponse := by
  by_cases told : Tells f
  · exact told.ofFault_ne_zero
  · rw [ofFault_of_not_tells told]
    decide

theorem Tells.toFault_ofFault (h : Tells f) (operation : Operation) :
    (toFault operation (ofFault f)).code = f.code ∧
      (toFault operation (ofFault f)).carried? = f.carried? := by
  cases h with
  | configuration message => exact ⟨rfl, rfl⟩
  | selector message => exact ⟨rfl, rfl⟩
  | @conversion code marshaling =>
    have own : isMarshaling code = true := isMarshaling_iff.mpr marshaling
    rw [ofFault, if_pos own, toFault, if_pos own]
    exact ⟨rfl, rfl⟩
  | @fault other code notTaken notMarshaling =>
    have option : code ≠ ErrorCode.configuration := by
      rintro rfl
      exact notTaken (by decide)
    have chain : code ≠ ErrorCode.selector := by
      rintro rfl
      exact notTaken (by decide)
    have back : toFault operation code = .moduleFault operation code := by
      rw [toFault, if_neg (mt isMarshaling_iff.mp notMarshaling), if_neg option, if_neg chain]
    rw [ofFault, if_pos (isFault_iff.mpr ⟨notTaken, notMarshaling⟩), back]
    exact ⟨rfl, rfl⟩

/-- Codes and faults. Every code but zero comes back from the fault that is read from it. A fault's
code is never zero, so that it is heard as an error from any buffer with room. It tells the kind and
the number of the faults that `Tells` lists, and every other fault is read as an internal one. -/
theorem error_codec (operation : Operation) (code : UInt16) (f : Fault) (b : Buffer) :
    (ofFault (toFault operation code) = code ↔ code ≠ 0) ∧
      ofFault f ≠ 0 ∧ (2 ≤ b.length → (b.putCode (ofFault f)).response = .error (ofFault f)) ∧
      (Tells f → (toFault operation (ofFault f)).code = f.code ∧
        (toFault operation (ofFault f)).carried? = f.carried?) ∧
      (¬ Tells f → toFault operation (ofFault f) = .moduleFault operation 4) := by
  refine ⟨⟨fun back => ?_, ofFault_toFault operation⟩, ofFault_ne_noResponse f, fun large => ?_,
    fun told => told.toFault_ofFault operation, fun untold => ?_⟩
  · rw [← back]
    exact ofFault_ne_noResponse _
  · rw [Buffer.response_putCode (Buffer.hasRoom_iff.mpr large), if_neg (ofFault_ne_noResponse f)]
  · rw [ofFault_of_not_tells untold]
    rfl

/-- A fault may carry the code of a breakdown, but not that of a conversion. -/
theorem error_codec_fault :
    (Buffer.putCode (ofFault (.moduleFault .query 3)) [7, 8]).response = .error 3 ∧
      (toFault .identify (ofFault (.moduleFault .query 3))).carried? = some 3 ∧
      toFault .query (ofFault (.moduleFault .query 22)) = .moduleFault .query 4 := by
  obtain ⟨-, -, heard, tells, -⟩ := error_codec .identify 3 (.moduleFault .query 3) [7, 8]
  obtain ⟨-, -, -, -, untold⟩ := error_codec .query 3 (.moduleFault .query 22) [7, 8]
  refine ⟨heard (by decide), (tells (.fault .query (by decide) (by decide))).2, untold ?_⟩
  intro told
  cases told with
  | fault operation notTaken notMarshaling => exact notMarshaling (by decide)

end ErrorCode
end MarkupGrader
