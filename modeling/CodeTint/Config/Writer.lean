import CodeTint.Config.Field
import CodeTint.Json.Object

/-!
# Writing settings

Settings are written as a compact object with every field in a fixed order.
-/

namespace CodeTint.Config

/-- The settings as a document. -/
def write (config : Config) : Text :=
  Json.writeObject
    [(Field.scheme.key, Json.writeWord config.scheme.name),
      (Field.classPrefix.key, Json.writeWord config.classPrefix),
      (Field.element.key, Json.writeWord config.element)]

end CodeTint.Config
