import SymbolIndex.Disk

/-! Last known modification times of files. -/

namespace SymbolIndex

abbrev Timestamps := OrderedMap Path Timestamp

namespace Timestamps

/-- The known time, or the disk's, which is known from then on. -/
def getOrStat (t : Timestamps) (d : Disk) (p : Path) : Timestamps × Option Timestamp :=
  match t.find? p with
  | some time => (t, some time)
  | none =>
    match d.modified? p with
    | some time => (t.insert p time, some time)
    | none => (t, none)

end Timestamps

end SymbolIndex
