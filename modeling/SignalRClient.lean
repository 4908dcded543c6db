import SignalRClient.Connection.Callbacks
import SignalRClient.Connection.Waiting
import SignalRClient.Connection.Messages
import SignalRClient.Connection.Endings
import SignalRClient.Connection.Order
import SignalRClient.Connection.Reconnect
import SignalRClient.Transport.Connectable
import SignalRClient.Transport.Lifetime
import SignalRClient.Session.Delivery
import SignalRClient.Connection.Signaling
import SignalRClient.Connection.Destructor
import SignalRClient.Connection.Conversation
import SignalRClient.CallbackManager.Settlement
import SignalRClient.Hub.Destruction
import SignalRClient.Hub.Removal
import SignalRClient.Hub.Configuration
