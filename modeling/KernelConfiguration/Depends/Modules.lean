import Mathlib.Data.Char
import Mathlib.Data.List.Lex
import Mathlib.Order.Basic

/-!
# The modules of build-depends

What `build-depends.cpp` knows of a module is its file name and its type, and the
type is looked up by the name in two tables: the modules of the first are only
collections of symbols, those of the second are initialised early, and all others
are ordinary. A module is made in one place only, so its type is always the one
its name has; `KernelConfiguration.Module` carries this as a field.

The program compares modules by address. `getModule` never makes two modules of
the same name, so the address of a module stands for its name, and a module can
be its own address (`KernelConfiguration.getModule_fst`).
-/

namespace KernelConfiguration

/-- The type of a module (`module_type_t`). -/
inductive ModuleType where
  /-- Initialised early. -/
  | subsystem
  /-- A collection of symbols. -/
  | symbol
  /-- An ordinary module. -/
  | module
  deriving DecidableEq, Repr

/-- The modules initialised early. -/
def subsys : List String :=
  ["bluetooth.ko", "snd.ko", "hwmon.ko", "wmi.ko", "mmc_core.ko", "videodev.ko", "dca.ko",
    "backlight.ko", "cfg80211.ko", "fbcon.ko", "led-class.ko", "mac80211.ko", "usbcore.ko",
    "rc-core.ko"]

/-- The collections of symbols. -/
def symbols : List String :=
  ["soundcore.ko", "libata.ko", "libahci.ko", "speedstep-lib.ko", "v4l2-common.ko",
    "videobuf2-memops.ko", "videobuf2-vmalloc.ko", "videobuf2-core.ko", "fbdev.ko", "fb.ko",
    "softcursor.ko", "bitblit.ko", "font.ko", "lzo_compress.ko", "lzo_decompress.ko",
    "cast_common.ko", "zlib_deflate.ko", "zlib_inflate.ko", "blowfish_common.ko",
    "twofish_common.ko", "usb-common.ko", "snd-hda-codec.ko", "snd-hda-codec-generic.ko",
    "i2c-mux.ko"]

/-- **The type of a name** (`getType`): the symbols are looked up first. -/
def getType (name : List Char) : ModuleType :=
  if symbols.any (·.toList = name) then .symbol
  else if subsys.any (·.toList = name) then .subsystem
  else .module

/-- **A module**, with the type its name has. -/
@[ext (iff := false)]
structure Module where
  /-- The file name. -/
  name : List Char
  /-- The type. -/
  type : ModuleType
  /-- The type is that of the name. -/
  type_eq : type = getType name

/-- The module of a name. -/
def moduleOf (name : List Char) : Module := ⟨name, getType name, rfl⟩

theorem moduleOf_name (m : Module) : moduleOf m.name = m :=
  Module.ext rfl m.type_eq.symm

theorem moduleOf_inj {name name' : List Char} : moduleOf name = moduleOf name' ↔ name = name' :=
  ⟨fun h => congrArg Module.name h, fun h => h ▸ rfl⟩

/-- The order of modules by their names, which is that of the set of modules. The
addresses of the modules may be in any order, and in this one among others. -/
abbrev nameOrder : LinearOrder Module :=
  LinearOrder.lift' Module.name fun m m' h => by rw [← moduleOf_name m, h, moduleOf_name]

/-- **The module of a name, out of the set of modules** (`getModule`), which it is
entered into when it is new. -/
def getModule (name : List Char) (modules : List Module) : Module × List Module :=
  match modules.find? (·.name = name) with
  | some m => (m, modules)
  | none => (moduleOf name, moduleOf name :: modules)

/-- The module found or made is the one of the name. -/
theorem getModule_fst (name : List Char) (modules : List Module) :
    (getModule name modules).1 = moduleOf name := by
  rw [getModule]
  cases h : modules.find? (·.name = name) with
  | none => rfl
  | some m =>
    have hname : m.name = name := by simpa using List.find?_some h
    rw [← hname, moduleOf_name]

end KernelConfiguration
