import ResourceVersions.Code.Render
import ResourceVersions.Model.Basic
import ResourceVersions.Source.Classes

/-!
# The module of conversions

The conversion functions of a spoke version and, behind them, the copy helpers. Only the
functions are public.
-/
namespace ResourceVersions.Source

open Code

def conversionHead (spoke hub : VersionModel) (hubAlias : String) : List String :=
  moduleHead spoke.api.serviceId spoke.version ++
    ["import copy",
     "",
     "from henkan.annotations import MISSING, pop_field_data, set_field_data",
     "",
     "from .types import *",
     s!"from ..{hub.version} import types as {hubAlias}",
     ""]

/-- The source of the module of conversions. -/
def conversionModule (spoke hub : VersionModel) (hubAlias : String)
    (functions helpers : List Func) : String :=
  fileText (moduleLines (conversionHead spoke hub hubAlias)
    ((functions ++ helpers).map Func.lines) (functions.map Func.name))

end ResourceVersions.Source
