import SqlScript.Template.Branch
import SqlScript.Template.Default

/-!
# Rendering templates

A template is rendered in three passes: declared defaults are taken out and fill in for parameters
that are not given, references to parameters are replaced by their values, and conditional branches
are resolved. Braces without a partner and references to unknown names stay as they are.
-/

namespace SqlScript

/-- The text a template stands for. -/
def render (grammar : Grammar) (template : Text) (parameters : Parameters) :
    Except Error Text :=
  let (stripped, defaults) := Default.extract template
  Branch.resolve grammar ((parameters.withDefaults defaults).substitute stripped)

end SqlScript
