import MarkupGrader.Proofs.Language.Cache

/-! Loaders that tell of their calls through the world: they count them, or they note for which
language a call was and what came of it. For the rest they do what they did before. -/

namespace MarkupGrader

variable {σ : Type}

theorem Registry.find?_loaders {τ : Type} (r : Registry σ) (loader : Registration σ → Loader τ)
    (id name : Text) :
    Registry.find? ⟨r.entries.map fun e => ⟨e.language, e.module, loader e⟩⟩ id name =
      (r.find? id name).map fun e => ⟨e.language, e.module, loader e⟩ := by
  rw [Registry.find?, List.find?_map]
  rfl

def Loader.counted (f : Loader σ) : Loader (σ × Nat) := fun (w, n) =>
  ((f w).1, (f w).2, n + 1)

/-- The registry with a number in the world that each call of a loader raises. -/
def Registry.counted (r : Registry σ) : Registry (σ × Nat) :=
  ⟨r.entries.map fun e => ⟨e.language, e.module, Loader.counted e.loader⟩⟩

theorem Registry.resolve_counted (r : Registry σ) (id name : Text) (w : σ) (n : Nat) :
    ∃ m ≤ 1, r.counted.resolve id name (w, n) =
      ((r.resolve id name w).1, (r.resolve id name w).2, n + m) := by
  rw [Registry.resolve, Registry.resolve, Registry.counted, Registry.find?_loaders]
  cases r.find? id name with
  | none => exact ⟨0, by omega, rfl⟩
  | some e => exact ⟨1, by omega, rfl⟩

theorem Cache.getOrLoad_counted (c : Cache) (r : Registry σ) (l : Language) (w : σ) (n : Nat) :
    ∃ m ≤ 1, c.getOrLoad r.counted l (w, n) =
      ((c.getOrLoad r l w).1, (c.getOrLoad r l w).2.1, (c.getOrLoad r l w).2.2, n + m) := by
  rw [Cache.getOrLoad, Cache.getOrLoad]
  cases c.get? l with
  | some exports => exact ⟨0, by omega, rfl⟩
  | none =>
    obtain ⟨m, bound, eq⟩ := r.resolve_counted l.id l.name w n
    refine ⟨m, bound, ?_⟩
    simp only [eq]
    cases r.resolve l.id l.name w with
    | mk result w' => cases result <;> rfl

/-- A call of a loader, by the language it is registered for. -/
structure Load where
  language : Language
  result : Except Fault Exports

def Loader.noted (l : Language) (f : Loader σ) : Loader (σ × List Load) := fun (w, loads) =>
  ((f w).1, (f w).2, loads ++ [⟨l, (f w).1⟩])

/-- The registry with a list in the world that each call of a loader is added to. -/
def Registry.noted (r : Registry σ) : Registry (σ × List Load) :=
  ⟨r.entries.map fun e => ⟨e.language, e.module, Loader.noted e.language e.loader⟩⟩

/-- The calls that it takes to load a language: one if it is registered, or else none. -/
def Registry.loads (r : Registry σ) (l : Language) (w : σ) : List Load :=
  (r.find? l.id l.name).toList.map fun e => ⟨e.language, (e.loader w).1⟩

theorem Registry.mem_loads {r : Registry σ} {l : Language} {w : σ} {load : Load}
    (mem : load ∈ r.loads l w) :
    load.language.key = l.key ∧ load.result = (r.resolve l.id l.name w).1 := by
  obtain ⟨e, found, rfl⟩ := List.mem_map.mp mem
  rw [Option.mem_toList] at found
  rw [Registry.resolve, found]
  exact ⟨Registry.key_of_find? found, rfl⟩

theorem Registry.resolve_noted (r : Registry σ) (l : Language) (w : σ) (loads : List Load) :
    r.noted.resolve l.id l.name (w, loads) =
      ((r.resolve l.id l.name w).1, (r.resolve l.id l.name w).2, loads ++ r.loads l w) := by
  rw [Registry.resolve, Registry.resolve, Registry.loads, Registry.noted, Registry.find?_loaders]
  cases r.find? l.id l.name with
  | none => simp
  | some e => rfl

theorem Cache.getOrLoad_noted (c : Cache) (r : Registry σ) (l : Language) (w : σ)
    (loads : List Load) :
    c.getOrLoad r.noted l (w, loads) =
      ((c.getOrLoad r l w).1, (c.getOrLoad r l w).2.1, (c.getOrLoad r l w).2.2,
        loads ++ if (c.get? l).isSome then [] else r.loads l w) := by
  rw [Cache.getOrLoad, Cache.getOrLoad]
  cases c.get? l with
  | some exports => simp
  | none =>
    simp only [r.resolve_noted l w loads]
    cases r.resolve l.id l.name w with
    | mk result w' => cases result <;> rfl

end MarkupGrader
