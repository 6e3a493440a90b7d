import Borsh.Schema.Definition
import Borsh.Schema.Impls
import Borsh.Schema.Aliases
import Borsh.Declaration.Reading
import Borsh.Registry.Run
import Borsh.Registry.Registrations
import Borsh.Registry.Union
import Borsh.Registry.Container
import Borsh.Registry.Invariant
import Borsh.Consumer.Expand
