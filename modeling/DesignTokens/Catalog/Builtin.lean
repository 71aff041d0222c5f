import DesignTokens.Catalog.ColorFunctions
import DesignTokens.Catalog.ContrastFunctions
import DesignTokens.Catalog.MathFunctions
import DesignTokens.Catalog.TypographyFunctions

/-!
# The built-in catalog

The functions of the four built-in families.
-/

namespace DesignTokens.Catalog

/-- All built-in functions. -/
def builtinEntries : List CatalogEntry :=
  ColorFunctions.table ++ ContrastFunctions.table ++ TypographyFunctions.table ++
    MathFunctions.table

/-- The catalog of all built-in functions. -/
def builtin : Catalog :=
  builtinEntries.foldl (fun catalog entry => catalog.insert entry.info entry.body) empty

end DesignTokens.Catalog
