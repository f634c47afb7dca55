import Swazz.AtomicCalls

/-! The rows that belong to a scan by its id, and how they are deleted ahead of it. -/
namespace Swazz.ScanDeletion

open AtomicCalls

/-- `SCAN_CHILD_TABLES` -/
inductive ChildTable where
  | findings
  | scanEvents
  | oobPending
  deriving DecidableEq

def SCAN_CHILD_TABLES : List ChildTable := [.findings, .scanEvents, .oobPending]

/-- Child rows deleted per statement. -/
def SCAN_CHILD_DELETE_CHUNK : ℕ := 5000

/-- Statements per table. -/
def SCAN_CHILD_MAX_CHUNKS : ℕ := 100

/-- The condition on scans in the deletions: their user or their project is among these. -/
structure Where where
  userIds : List String
  projectIds : List String
  deriving DecidableEq

def Where.matches (w : Where) (userId projectId : Option String) : Bool :=
  userId.any w.userIds.contains || projectId.any w.projectIds.contains

variable {Op : Type} {Answer : Op → Type}

/-- The rounds on one table: a statement that deletes less than a chunk is the last. -/
def purgeTable (deleteChunk : Calls Answer ℕ) : ℕ → Calls Answer Unit
  | 0 => .ret ()
  | chunks+1 => deleteChunk.bind fun changes =>
      if changes < SCAN_CHILD_DELETE_CHUNK then .ret () else purgeTable deleteChunk chunks

def purgeTables (deleteChunk : ChildTable → Calls Answer ℕ) : List ChildTable → Calls Answer Unit
  | [] => .ret ()
  | table :: tables => (purgeTable (deleteChunk table) SCAN_CHILD_MAX_CHUNKS).bind fun _ =>
      purgeTables deleteChunk tables

/-- `deleteChunk` is the statement on a table; it answers how many rows it deleted. -/
def purgeScanChildren (deleteChunk : ChildTable → Calls Answer ℕ) : Calls Answer Unit :=
  purgeTables deleteChunk SCAN_CHILD_TABLES

variable {P : Op → Prop}

theorem uses_purgeScanChildren {deleteChunk : ChildTable → Calls Answer ℕ}
    (h : ∀ table, Calls.Uses P (deleteChunk table)) :
    Calls.Uses P (purgeScanChildren deleteChunk) := by
  have htable (table : ChildTable) (chunks : ℕ) :
      Calls.Uses P (purgeTable (deleteChunk table) chunks) := by
    induction chunks with
    | zero => exact trivial
    | succ chunks ih =>
      refine Calls.uses_bind (h table) fun changes => ?_
      split
      · exact trivial
      · exact ih
  have htables (tables : List ChildTable) : Calls.Uses P (purgeTables deleteChunk tables) := by
    induction tables with
    | nil => exact trivial
    | cons table tables ih => exact Calls.uses_bind (htable table _) fun _ => ih
  exact htables SCAN_CHILD_TABLES

end Swazz.ScanDeletion
