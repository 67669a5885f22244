import Vcache.Paths

/-!
# The records of a traced run

The tracer writes down the paths the processes of a run opened, loaded, wrote or
looked for in vain, as they spelled them; `ParseTraceLog` makes each absolute and
normal before anything else looks at it (`core/link_trace`).
-/

namespace Vcache

def ignoredPaths : List Str :=
  ["/proc", "/sys", "/dev/null", "/dev/tty", "/dev/random", "/dev/urandom"].map String.toList

def ignoredPrefixes : List Str := ["/proc/", "/sys/", "/dev/pts/"].map String.toList

def isIgnoredPath (path : Str) : Bool :=
  !isAbsolute path || path ∈ ignoredPaths || ignoredPrefixes.any (startsWith path) ||
    endsWith path "/.".toList

/-- The tracer's records by kind. -/
structure TraceRecords where
  reads : List Str := []
  absent : List Str := []
  tools : List Str := []
  loaded : List Str := []
  written : List Str := []

def TraceRecords.opened (r : TraceRecords) : List Str := r.reads ++ r.loaded ++ r.written

def TraceRecords.files (r : TraceRecords) : List Str := r.opened ++ r.tools

structure LinkTrace where
  inputs : List Str
  absent : List Str
  tools : List Str

/-- The records of one kind `ParseTraceLog` keeps, made absolute and normal: no path it
ignores and no output of the run. -/
def keepTraced (host : Host) (outputs paths : List Str) : List Str :=
  (paths.map (absoluteLexical host)).filter (fun path =>
    !isIgnoredPath path && decide (path ∉ outputs.map (absoluteLexical host)))

/-- `ParseTraceLog` once the log is read. A path probed in vain and later read is an
input, not an absence. -/
def parseTraceLog (host : Host) (outputs : List Str) (records : TraceRecords) : LinkTrace :=
  let keep := keepTraced host outputs
  let reads := sortUnique (keep records.opened)
  { inputs := reads
    absent := (sortUnique (keep records.absent)).filter (fun path => path ∉ reads)
    tools := sortUnique (keep records.tools) }

theorem mem_of_mem_keepTraced {host : Host} {outputs paths : List Str} {path : Str}
    (h : path ∈ keepTraced host outputs paths) : path ∈ paths.map (absoluteLexical host) :=
  (List.mem_filter.mp h).1

end Vcache
