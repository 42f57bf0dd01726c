import GraphR.Store.SideCalls

/-! # The edges of a document

    `set_edges` and `set_edges_with_flags` share one loop. What it is to stage is
    said here without it: of the edges given, those to other keys, the first for
    each destination, of these the first 4096, in the order of their destinations
    (`wantedEdges`). -/

namespace GraphR

open Wal ByteLib

/-! ## What is wanted -/

/-- A call on the edges of a key. -/
inductive EdgeCall where
  | setEdges (edges : List (UrlKey × EdgeType × UInt16))
  | setEdgesWithFlags (edges : List (UrlKey × EdgeType × UInt16 × UInt8))

namespace EdgeCall

/-- The edges as the caller gives them. -/
def given : EdgeCall → List Writer.EdgeSpec
  | .setEdges edges => edges.map fun (d, t, w) => ⟨d, t, w, 0⟩
  | .setEdgesWithFlags edges => edges.map fun (d, t, w, f) => ⟨d, t, w, f⟩

def write (k : UrlKey) : EdgeCall → Write
  | .setEdges edges => .setEdges k edges
  | .setEdgesWithFlags edges => .setEdgesWithFlags k edges

/-- The call on the writer's record. -/
def stage (b : RecordBuf) (k : UrlKey) : EdgeCall → RecordBuf
  | .setEdges edges => Writer.setEdges b k edges
  | .setEdgesWithFlags edges => Writer.setEdgesWithFlags b k edges

end EdgeCall

/-- What the writer makes of a spec before the loop. -/
def maskedSpec (e : Writer.EdgeSpec) : Writer.EdgeSpec := { e with flags := e.flags &&& eflags.exact }

/-- The call stages the edge set of its masked specs. -/
theorem EdgeCall.stage_eq (b : RecordBuf) (k : UrlKey) (call : EdgeCall) :
    call.stage b k = Writer.stageEdges b k (call.given.map maskedSpec) := by
  cases call with
  | setEdges edges =>
    simp [EdgeCall.stage, EdgeCall.given, Writer.setEdges, maskedSpec, Function.comp_def]
  | setEdgesWithFlags edges =>
    simp [EdgeCall.stage, EdgeCall.given, Writer.setEdgesWithFlags, maskedSpec, Function.comp_def]

section calls
variable {xxh3 : Bytes → UInt64} {rank : SortedMap UrlKey NodeModel → List UInt16}
  {ttl : TtlConfig} {c : Chronicle}

end calls

end GraphR
