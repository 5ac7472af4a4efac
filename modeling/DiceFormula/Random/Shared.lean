/-
# Sharing

A program shares one seeder between its users.  It can be set once, before anyone
asks for it; whoever comes later gets the own one back.

A generator that several users share is lent to one of them at a time.  While it is
lent, nobody can borrow it, not even the one who has it.
-/

import DiceFormula.Random.Generator

namespace DiceFormula

/-- The seed source that a program shares, once there is one. -/
abbrev SharedSeeder := Option Seeder

/-- Sets the shared seed source.  One that is set stays, and the new one is given
back. -/
def SharedSeeder.install (shared : SharedSeeder) (source : Seeder) :
    Except Seeder SharedSeeder :=
  match shared with
  | none => .ok (some source)
  | some _ => .error source

/-- Something that one user at a time may borrow. -/
inductive Loan (σ : Type) where
  | here (state : σ)
  | lent

namespace Loan

/-- Lends the state out for the time of `use`.  There is nothing to lend while it is
lent already, so a borrower cannot borrow again. -/
def borrow {σ β : Type} (l : Loan σ) (use : σ → Loan σ → Option (β × σ)) : Option (β × Loan σ) :=
  match l with
  | here state => (use state lent).map fun (b, state) => (b, here state)
  | lent => none

end Loan
end DiceFormula
