import DicePool.Draw
import DicePool.Record

/-!
This module contains the rolling of pools. Every pool is checked before a die of any of them is
drawn, so that a roll is made as a whole or not at all.
-/

namespace DicePool

inductive Stage where
  | initialized
  | rollsGenerated
  | modifiersApplied
  | totalComputed
  | recordBuilt
deriving DecidableEq, Repr, Inhabited

def Stage.name : Stage → String
  | .initialized => "Initialized"
  | .rollsGenerated => "RollsGenerated"
  | .modifiersApplied => "ModifiersApplied"
  | .totalComputed => "TotalComputed"
  | .recordBuilt => "RecordBuilt"

variable {σ : Type}

namespace Pool

def roll (p : Pool) (float : StateM σ Float) : ExceptT RollError (StateM σ) Record := do
  let die := Draw.die float p.sides
  let initialRolls ← Draw.times die p.quantity.toNat
  let tally ← p.modifiers.apply p.sides p.quantity die initialRolls
  return .ofTally p initialRolls tally

end Pool

inductive PoolRequest where
  | sides (n : UInt32)
  | text (text : String)
  | spec (spec : PoolSpec)
deriving DecidableEq, Repr

namespace PoolRequest

def toPool : PoolRequest → Except RollError Pool
  | .sides n => Pool.ofSpec { sides := .numbered n }
  | .text s => Pool.ofNotation s
  | .spec s => Pool.ofSpec s

end PoolRequest

namespace Outcome

def pools (requests : List PoolRequest) : Except RollError (List Pool) := do
  match ← requests.mapM PoolRequest.toPool with
  | [] => throw (.invalidOptions .noPools)
  | pools => return pools

def ofRequests (requests : List PoolRequest) (float : StateM σ Float) :
    ExceptT RollError (StateM σ) Outcome := do
  let pools ← ExceptT.mk (pure (pools requests))
  return .ofRecords (← pools.mapM fun p => p.roll float)

end Outcome

def rollFace (faces : List String) (float : StateM σ Float) :
    ExceptT RollError (StateM σ) String := do
  if faces.isEmpty then
    throw (.invalidOptions .noFaces)
  let roll ← Draw.die float (.ofNat faces.length)
  match faceAt? faces roll with
  | some face => return face
  | none => throw (.invalidOptions (.noSuchFace roll))

end DicePool
