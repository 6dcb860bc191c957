import QuantCore.Consensus.Limits

/-!
# The emission checkpoints

What `issued_through` keeps between calls: the total at every 4096th height it
has been through, and the height from which every block pays the tail subsidy,
once it has come past it.
-/

namespace QuantCore

/-- `STEP`. -/
def emissionStep : Nat := 4096

/-- The globals `g_issued_at`, `g_tail_height` and `g_tail_base`. -/
structure EmissionCache where
  issuedAt : List Amount := []
  tailHeight : UInt64 := 0
  tailBase : Amount := 0
deriving DecidableEq, Repr, Inhabited

namespace EmissionCache

/-- The loop over the heights `h + i`, `h + i + 1`, ... of a chunk. -/
def chunkLoop (h : UInt64) : Nat → UInt64 → Amount → EmissionCache → Amount × EmissionCache
  | 0, _, iss, c => (iss, c)
  | n + 1, i, iss, c =>
      let s := subsidyAfter iss
      let c :=
        if s = tailSubsidy ∧ c.tailHeight = 0 then
          { c with tailHeight := h + i, tailBase := iss }
        else c
      chunkLoop h n (i + 1) (iss + s) c

/-- One round of the outer loop: the chunk from the last checkpoint. -/
def addChunk (c : EmissionCache) : EmissionCache :=
  let h := UInt64.ofNat ((c.issuedAt.length - 1) * emissionStep)
  let r := chunkLoop h emissionStep 1 (c.issuedAt.getLastD 0) c
  { r.2 with issuedAt := c.issuedAt ++ [r.1] }

theorem addChunk_length (c : EmissionCache) :
    c.addChunk.issuedAt.length = c.issuedAt.length + 1 := by
  rw [addChunk, List.length_append, List.length_singleton]

/-- The outer loop, up to the height that is asked for or to the tail. -/
def fill (height : Nat) (c : EmissionCache) : EmissionCache :=
  if (c.issuedAt.length - 1) * emissionStep < height ∧ c.tailHeight = 0 then
    fill height c.addChunk
  else c
termination_by height + emissionStep - c.issuedAt.length * emissionStep
decreasing_by
  next h =>
    have hlen := c.addChunk_length
    have hstep : emissionStep = 4096 := rfl
    rw [hlen, hstep]
    rw [hstep] at h
    omega

/-- The last loop, over single heights. -/
def stepFrom : Nat → Amount → Amount
  | 0, iss => iss
  | n + 1, iss => stepFrom n (iss + subsidyAfter iss)

/-- What is issued through a height from the tail on. -/
def tailIssued (c : EmissionCache) (height : UInt64) : Amount :=
  c.tailBase + (height - c.tailHeight + 1) * tailSubsidy

/-- Before the first call there is no checkpoint at all. -/
def begun (c : EmissionCache) : EmissionCache :=
  if c.issuedAt.isEmpty then { c with issuedAt := [0] } else c

def issuedThrough (c : EmissionCache) (height : UInt64) : EmissionCache × Amount :=
  let c := c.begun
  if c.tailHeight ≠ 0 ∧ height ≥ c.tailHeight then (c, c.tailIssued height)
  else
    let c := c.fill height.toNat
    if c.tailHeight ≠ 0 ∧ height ≥ c.tailHeight then (c, c.tailIssued height)
    else
      let k := height.toNat / emissionStep
      (c, stepFrom (height.toNat - k * emissionStep) (c.issuedAt.getD k 0))

def blockSubsidy (c : EmissionCache) (height : UInt64) : EmissionCache × Amount :=
  if height = 0 then (c, 0)
  else
    let (c, iss) := c.issuedThrough (height - 1)
    (c, subsidyAfter iss)

end EmissionCache

end QuantCore
