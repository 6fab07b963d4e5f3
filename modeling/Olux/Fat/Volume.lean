import Olux.Fat.Dir.Lemmas
import Olux.Fat.Tree
import Olux.Lib.Reach

namespace Olux.Fat

open Olux.Lib Relation

structure Vol where
  get : Nat → Nat
  slots : Nat → List De

variable (g : Geom)

def slots (s : St) (d : Nat) : List De :=
  match dirLoad g d s with
  | .ok D => D.e
  | .error _ => []

def vol (s : St) : Vol := ⟨fatGet g s, slots g s⟩

namespace Vol

variable (g : Geom) (v : Vol)

def ent (p : Loc) : Option De := ((v.slots p.dclus)[p.idx]?).filter live

def Edge (d c : Nat) : Prop := ∃ i e, v.ent ⟨d, i⟩ = some e ∧ e.isDir ∧ deStart g e = c

def Reach (d : Nat) : Prop := ReflTransGen (v.Edge g) (rootClus g) d

inductive Depth : Nat → Nat → Prop
  | root : Depth 0 (rootClus g)
  | step {n d c : Nat} : Depth n d → v.Edge g d c → Depth (n + 1) c

end Vol

-- Who a chain belongs to: the root directory, the entry at a place, or, inside of an
-- operation, the entry that is still to be made.
inductive Owner where
  | root
  | new
  | entry (p : Loc)
deriving DecidableEq

def Fits (e : De) (l : List Nat) : Prop :=
  deStart g e = l.headD 0 ∧
    if e.isDir then l ≠ [] ∧ l.length * per g ≤ MAX_DIR_ENTRIES else l.length = clustersFor g e.size.toNat

def Ended (l : List De) : Prop :=
  ∀ (i j : Nat) (e e' : De), i < j → l[i]? = some e → l[j]? = some e' → lead e.name = 0 → lead e'.name = 0

-- Consistency, with the chain of each owner: every live entry that is reached from the root
-- has the chain it should have, no cluster is in two chains, and every cluster that is
-- neither free nor bad is in one.
structure Consistent (g : Geom) (v : Vol) (own : Owner → List Nat) : Prop where
  books : (rows g).Books v.get own
  root : rootClus g = (own .root).headD 0 ∧ (own .root).length * per g ≤ MAX_DIR_ENTRIES
  entry : ∀ p e, v.Reach g p.dclus → v.ent p = some e → Fits g e (own (.entry p))
  none : ∀ p, v.Reach g p.dclus ∧ v.ent p ≠ none ∨ own (.entry p) = []
  ended : ∀ d, v.Reach g d → Ended (v.slots d)

def IsDotdot (d : Nat) (e : De) : Prop := e.name = DOTDOT ∧ e.isDir ∧ deStart g e = dotdotStart g d

def Dotted (v : Vol) : Prop :=
  ∀ d c, v.Reach g d → v.Edge g d c → ∃ e, (v.slots c)[1]? = some e ∧ IsDotdot g d e

end Olux.Fat
