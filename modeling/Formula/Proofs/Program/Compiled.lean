import Formula.Proofs.Program.Unknown

namespace Formula

variable {σ : Type} {snapshot : Snapshot σ} {room : Room} {fault : Fault}

/-- Why a tree in shape has no code. -/
def Snapshot.Lacks (snapshot : Snapshot σ) (fault : Fault) : Prop :=
  fault = .stackExhausted ∨ ∃ name, snapshot.functions name = none ∧ fault = .unknownFunction name

/-- Checking the parts of a tree in shape finds no fault with them. -/
theorem lacks_of_code {e : Expr} (shape : e.Everywhere Expr.InShape)
    (h : code snapshot room e = .error fault) : snapshot.Lacks fault := by
  rcases stops_of_code shape h with ⟨hfault, -⟩ | ⟨name, hname, hfault⟩
  · exact .inl hfault
  · obtain ⟨arguments, -, hnone⟩ := Expr.exists_of_firstUnknown?_eq_some hname
    exact .inr ⟨name, hnone, hfault⟩

/-- Compiling a tree in shape fails for a function that is missing or for want of room. -/
theorem compile_error {e : Expr} (shape : e.Everywhere Expr.InShape)
    (h : compile snapshot room e = .error fault) :
    fault = .tooDeep ∨
      ∃ name, snapshot.functions name = none ∧ fault = .unknownFunction name := by
  unfold compile at h
  split at h
  next => cases h
  next cause hcause =>
    cases h
    rcases lacks_of_code shape hcause with rfl | ⟨name, hname, rfl⟩
    · exact .inl rfl
    · exact .inr ⟨name, hname, rfl⟩

end Formula
