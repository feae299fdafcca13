import LinkConnectors.Encoding
import LinkConnectors.Interner

/-! Descriptors: what a dictionary keeps of one connector name. Matching two descriptors compares
the numbers of their cores and two pairs of machine words, without a look at the names. -/
namespace LinkConnectors

structure Descriptor where
  name : Handle
  hash : UInt32
  encoding : Encoding
  /-- The number of the core among the cores of the table. It is given when the table is grouped. -/
  coreId : Option Nat := none
  /-- The longest link, in words. 0 leaves the choice to the run, and 255 sets no limit. -/
  limit : Nat := 0
  deriving DecidableEq, Repr

namespace Descriptor

def text (d : Descriptor) : String := d.name.text

def core (d : Descriptor) : String := d.encoding.core

def role (d : Descriptor) : Role := d.encoding.role

def suffix (d : Descriptor) : Suffix := d.encoding.packed

/-- Matching of suffixes and roles alone, for descriptors whose cores are known to be equal. -/
def suffixMatches (a b : Descriptor) : Bool :=
  a.suffix.compatible b.suffix && !a.role.excludes b.role

/-- Whether connectors of these two kinds may form a link. There is no answer before the cores have
been numbered. -/
def matches? (a b : Descriptor) : Option Bool :=
  match a.coreId, b.coreId with
  | some m, some n => some (m == n && a.suffixMatches b)
  | _, _ => none

theorem suffixMatches_comm (a b : Descriptor) : a.suffixMatches b = b.suffixMatches a := by
  simp [suffixMatches, Suffix.compatible_comm a.suffix, Role.excludes_comm a.role]

theorem matches?_comm (a b : Descriptor) : a.matches? b = b.matches? a := by
  unfold matches?
  cases a.coreId <;> cases b.coreId <;> simp [suffixMatches_comm a b, BEq.comm]

/-- The order of the view by core: first the core, then the whole name. -/
def sortsBefore (a b : Descriptor) : Bool :=
  a.core < b.core || (a.core == b.core && a.text ≤ b.text)

def roleWord (d : Descriptor) : String :=
  match d.role with
  | .unmarked => "None"
  | .head => "Head"
  | .dependent => "Dependent"

/-- The fields that matter for matching, in one line. -/
def describe (d : Descriptor) : String :=
  let core := match d.coreId with
    | some n => s!"Some({n})"
    | none => "None"
  "Condesc \x7b string: " ++ Text.quote d.text ++ ", uc_num: " ++ core ++
    ", head_dependent: " ++ d.roleWord ++ ", length_limit: " ++ toString d.limit ++
    ", lc_letters: " ++ Text.hexWord d.suffix.letters ++
    ", lc_mask: " ++ Text.hexWord d.suffix.mask ++ " \x7d"

end Descriptor

end LinkConnectors
