import Ardoise.Proofs.Sessions.Grounds

/-!
# Closures are told apart by their numbers

Closures are numbered as they are made, and the numbers go on from run to run and
from session to session.  So a number belongs to one closure for good: wherever a
session comes to hold two closures of the same number, they are the same closure.
-/

namespace Ardoise

def Function.Listed (made : List Closure) : Function → Prop
  | .builtin f arity => arity = f.arity
  | .closure f => made[f.number]? = some f

namespace Function.Listed

variable {made more : List Closure} {f g : Function}

theorem mono (longer : made <+: more) (h : f.Listed made) : f.Listed more := by
  cases f with
  | builtin => exact h
  | closure f =>
      obtain ⟨later, rfl⟩ := longer
      obtain ⟨within, _⟩ := List.getElem?_eq_some_iff.mp h
      exact (List.getElem?_append_left within).trans h

theorem eq_of_same (hf : f.Listed made) (hg : g.Listed made) (same : f.same g = true) :
    f = g := by
  cases f with
  | builtin f n =>
      cases g with
      | builtin g k =>
          have one : f = g := by simpa [Function.same] using same
          rw [show n = f.arity from hf, show k = g.arity from hg, one]
      | closure g => cases same
  | closure f =>
      cases g with
      | builtin g => cases same
      | closure g =>
          have numbers : f.number = g.number := by simpa [Function.same] using same
          have one : some f = some g := by
            rw [← (show made[f.number]? = some f from hf), numbers]
            exact hg
          cases one
          rfl

end Function.Listed

def register : Custody (List Closure) where
  later made more := made <+: more
  owns := Function.Listed
  fits made m :=
    made.length = m.closures ∧ m.store.Each (Value.Holds (Function.Listed made))

theorem register_kept (limit : Nat) : register.Kept limit fun _ => True where
  refl _ := List.prefix_rfl
  trans := List.IsPrefix.trans
  visited _ _ := trivial
  mono := Function.Listed.mono
  quiet _ _ _ fits := fits
  get fits found := fits.2.get found
  assign fits has assigned := ⟨fits.1, fits.2.assign has assigned⟩
  declare fits has defined := ⟨fits.1, fits.2.define has defined⟩
  make {made m} name parameters body fits := by
    obtain ⟨count, each⟩ := fits
    let new : Closure := ⟨m.closures, name, parameters.length, parameters, body, m.scope⟩
    have longer : made <+: made ++ [new] := List.prefix_append _ _
    refine ⟨made ++ [new], longer, ?_, ?_, each.mono fun _ held => held.mono fun _ => .mono longer⟩
    · simp [register, Function.Listed, new, ← count]
    · simp [count]
  enter fits := ⟨_, List.prefix_rfl, fits.1, fits.2.push _⟩
  call _ fits _ := ⟨_, List.prefix_rfl, fits.1, fits.2.push _⟩
  leave _ _ fits := fits

/-! ## Worlds -/

namespace World

def Registers (world : World) (made : List Closure) : Prop :=
  made.length = world.closures ∧ world.store.Each (Value.Holds (Function.Listed made))

theorem registers_lasting : Lasting fun world => ∃ made, world.Registers made where
  initial := ⟨[], rfl, initial_each fun _ => .function rfl⟩
  newSession _ _ h := by
    obtain ⟨made, count, each⟩ := h
    exact ⟨made, count, each.push _⟩
  clearLines h := h
  reset _ h := by
    obtain ⟨made, count, each⟩ := h
    exact ⟨made, count, (each.clearAll _).clear _⟩
  run _ _ h ran := by
    obtain ⟨made, registers⟩ := h
    obtain ⟨more, _, fits⟩ := (register_kept _).run (fun _ => registers) ran
    exact ⟨more, fits #[]⟩

end World

end Ardoise
