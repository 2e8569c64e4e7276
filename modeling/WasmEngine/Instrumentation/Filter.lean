import WasmEngine.Pattern.Matching
import WasmEngine.Instrumentation.Probe

/-!
# Selection of functions

Which functions are instrumented, by name: those that the filter accepts and that are not excluded.
The functions of the host interface are excluded unless the configuration says otherwise.
-/
namespace WasmEngine
set_option autoImplicit false

/-- Accepts functions by name. -/
inductive FunctionFilter where
  | all
  | exact (name : String)
  | pattern (node : Pattern.Node)
  deriving Inhabited

namespace FunctionFilter

/-- The filter of the names in which a pattern is found; none if the pattern is malformed. -/
def ofPattern? (text : String) : Option FunctionFilter :=
  (Pattern.parse? text.toUTF8.toList).map .pattern

/-- The filter that a text denotes: all functions if it is empty or a single point, else a
pattern. -/
def parse? (text : String) : Option FunctionFilter :=
  if text = "" || text = "." then some .all else ofPattern? text

def accepts (f : FunctionFilter) (name : String) : Bool :=
  match f with
  | .all => true
  | .exact n => name == n
  | .pattern node => node.search name.toUTF8.toList

end FunctionFilter

/-- The functions of the host interface, sorted. -/
def hostInterface : List String :=
  ["__original_main", "__wasi_args_get", "__wasi_args_sizes_get", "__wasi_clock_time_get",
    "__wasi_environ_get", "__wasi_environ_sizes_get", "__wasi_fd_close", "__wasi_fd_fdstat_get",
    "__wasi_fd_prestat_dir_name", "__wasi_fd_prestat_get", "__wasi_fd_read", "__wasi_fd_seek",
    "__wasi_fd_write", "__wasi_path_open", "__wasi_proc_exit", "__wasi_random_get",
    "__wasilibc_ensure_environ", "__wasilibc_initialize_environ", "__wasilibc_populate_preopens",
    "__wasm_call_ctors"]

/-- The settings of coverage. -/
structure Instrumentation where
  listener : Option Nat := none
  mode : CoverageMode := .offsets
  filter : FunctionFilter := .all
  excluded : List String := hostInterface
  deriving Inhabited

def Instrumentation.selects (c : Instrumentation) (name : String) : Bool :=
  !c.excluded.contains name && c.filter.accepts name

end WasmEngine
